import FlowIR.OpenWeight
import FlowIR.Ty.Basic

/-!
# Structural equality of types

Two types are equal if their outermost layers agree and so do all their components. A pair that is
already being compared is taken to be equal, so the comparison of recursive types ends: there are
only finitely many pairs, and each is compared at most once.
-/
namespace FlowIR.Ty

abbrev Pair := TypeId × TypeId

def pairs (types : List Ty) : List Pair :=
  (List.range types.length).flatMap fun a => (List.range types.length).map (a, ·)

def componentCount (types : List Ty) (pair : Pair) : Nat :=
  (types[pair.1]?.map fun ty => ty.components.length).getD 0

private theorem mem_pairs {types : List Ty} {a b : TypeId} {s t : Ty} (left : types[a]? = some s)
    (right : types[b]? = some t) : (a, b) ∈ pairs types := by
  have a_lt : a < types.length := (List.getElem?_eq_some_iff.mp left).1
  have b_lt : b < types.length := (List.getElem?_eq_some_iff.mp right).1
  simp [pairs, a_lt, b_lt]

/-- Compares pairs of types, given the pairs that are taken to be equal. Nothing if one of the
numbers is not a type. -/
def equalFrom (types : List Ty) (assumed : List Pair) : List Pair → Option Bool
  | [] => some true
  | (a, b) :: rest =>
    if _settled : a = b ∨ (a, b) ∈ assumed then equalFrom types assumed rest
    else
      match _left : types[a]?, _right : types[b]? with
      | some s, some t =>
        if s.sameShape t then
          equalFrom types ((a, b) :: assumed) (s.components.zip t.components ++ rest)
        else some false
      | _, _ => none
termination_by rest =>
  openWeight (componentCount types) (· ∉ assumed) (pairs types) + rest.length
decreasing_by
  · simp
  · have step := openWeight_add_le (componentCount types) (· ∉ assumed) (· ∉ (a, b) :: assumed)
      (pairs types) (by simp_all) (a, b) (mem_pairs _left _right) (by simp_all) (by simp)
    have count : componentCount types (a, b) = s.components.length := by
      simp [componentCount, _left]
    simp only [List.length_append, List.length_zip, List.length_cons] at *
    omega

def equal? (types : List Ty) (a b : TypeId) : Option Bool := equalFrom types [] [(a, b)]

end FlowIR.Ty
