import FlowIR.Proofs.Link.Types

/-!
# Equality of types as bisimilarity

Two types are bisimilar if some relation holds of them under which related types agree in their
outermost layers and have related components. The comparison of types finds exactly the bisimilar
ones, although it never takes back an assumption: one pair that differs ends the whole comparison,
so every assumption of a comparison that succeeds has been checked when it ends.
-/
namespace FlowIR

namespace Ty

/-! ### Bisimilar types -/

/-- Both types have the same constructor and scalars, and their components are related one by one. A
type with a name is a leaf, whatever it stands for. -/
inductive SameLayer (related : TypeId → TypeId → Prop) : Ty → Ty → Prop
  | void : SameLayer related .void .void
  | label : SameLayer related .label .label
  | metadata : SameLayer related .metadata .metadata
  | integer (width : UInt32) : SameLayer related (.integer width) (.integer width)
  | float (kind : FloatKind) : SameLayer related (.float kind) (.float kind)
  | pointer {a b : TypeId} (addrSpace : UInt32) (pointee : related a b) :
      SameLayer related (.pointer a addrSpace) (.pointer b addrSpace)
  | array {a b : TypeId} (len : UInt64) (elem : related a b) :
      SameLayer related (.array len a) (.array len b)
  | vector {a b : TypeId} (len : UInt64) (elem : related a b) :
      SameLayer related (.vector len a) (.vector len b)
  | function {a b : TypeId} {as bs : List TypeId} (vararg : Bool) (ret : related a b)
      (params : List.Forall₂ related as bs) :
      SameLayer related (.function a as vararg) (.function b bs vararg)
  | struct {as bs : List TypeId} (packed : Bool) (fields : List.Forall₂ related as bs) :
      SameLayer related (.struct as packed) (.struct bs packed)
  | named {a b : TypeId} (name : String) : SameLayer related (.named name a) (.named name b)
  | opaqueType (name : String) : SameLayer related (.opaqueType name) (.opaqueType name)

/-- Related numbers belong to types with the same layer and related components. -/
def IsBisimulation (types : List Ty) (related : TypeId → TypeId → Prop) : Prop :=
  ∀ a b, related a b →
    ∃ s t, types[a]? = some s ∧ types[b]? = some t ∧ SameLayer related s t

/-- The largest of these relations. -/
def Bisimilar (types : List Ty) (a b : TypeId) : Prop :=
  ∃ related, IsBisimulation types related ∧ related a b

/-- All components of the types are types of the list. -/
def Closed (types : List Ty) : Prop :=
  ∀ ty ∈ types, ∀ inner ∈ ty.components, inner < types.length

variable {types : List Ty} {related other : TypeId → TypeId → Prop} {s t u : Ty} {a b c : TypeId}

/-! ### Layers -/

private theorem sameLayer_iff : SameLayer related s t ↔
    s.sameShape t = true ∧ List.Forall₂ related s.components t.components := by
  constructor
  · intro same
    cases same with
    | function _ ret params =>
      simp [sameShape, skeleton, components, params.length_eq, ret, params]
    | struct _ fields => simp [sameShape, skeleton, components, fields.length_eq, fields]
    | _ => simp_all [sameShape, skeleton, components]
  · rintro ⟨same, related_components⟩
    -- Types with different constructors have different skeletons.
    cases s <;> cases t <;> simp [sameShape, skeleton, components] at same related_components
    case void => exact .void
    case label => exact .label
    case metadata => exact .metadata
    case integer => exact same ▸ .integer _
    case float => exact same ▸ .float _
    case pointer => exact same ▸ .pointer _ related_components
    case array => exact same ▸ .array _ related_components
    case vector => exact same ▸ .vector _ related_components
    case function => exact same.1 ▸ .function _ related_components.1 related_components.2
    case struct => exact same.1 ▸ .struct _ related_components
    case named => exact same ▸ .named _
    case opaqueType => exact same ▸ .opaqueType _

private theorem forall₂_comp {as bs cs : List TypeId} (first : List.Forall₂ related as bs)
    (second : List.Forall₂ other bs cs) :
    List.Forall₂ (fun a c => ∃ b, related a b ∧ other b c) as cs := by
  induction first generalizing cs with
  | nil =>
    cases second
    exact .nil
  | cons head _ ih =>
    cases second with
    | cons next rest => exact .cons ⟨_, head, next⟩ (ih rest)

namespace SameLayer

private theorem mono (same : SameLayer related s t)
    (weaker : ∀ a ∈ s.components, ∀ b, related a b → other a b) : SameLayer other s t := by
  rw [sameLayer_iff] at same ⊢
  obtain ⟨same_length, each⟩ := List.forall₂_iff_zip.mp same.2
  refine ⟨same.1, List.forall₂_iff_zip.mpr ⟨same_length, fun {a b} inner => ?_⟩⟩
  exact weaker a (List.of_mem_zip inner).1 b (each inner)

private theorem refl (s : Ty) (each : ∀ inner ∈ s.components, related inner inner) :
    SameLayer related s s := by
  apply sameLayer_iff.mpr
  constructor
  · simp [sameShape]
  · exact List.forall₂_same.mpr each

private theorem symm (same : SameLayer related s t) : SameLayer (fun a b => related b a) t s := by
  cases same with
  | function vararg ret params => exact .function vararg ret params.flip
  | struct packed fields => exact .struct packed fields.flip
  | _ => constructor <;> assumption

private theorem trans (first : SameLayer related s t) (second : SameLayer other t u) :
    SameLayer (fun a c => ∃ b, related a b ∧ other b c) s u := by
  rw [sameLayer_iff] at first second ⊢
  constructor
  · simp only [sameShape, Bool.and_eq_true, decide_eq_true_eq] at first second ⊢
    exact ⟨first.1.1.trans second.1.1, first.1.2.trans second.1.2⟩
  · exact forall₂_comp first.2 second.2

end SameLayer

/-! ### Bisimilarity is an equivalence -/

namespace Bisimilar

private theorem layer (bisimilar : Bisimilar types a b) :
    ∃ s t, types[a]? = some s ∧ types[b]? = some t ∧ SameLayer (Bisimilar types) s t := by
  obtain ⟨related, bisimulation, holds⟩ := bisimilar
  obtain ⟨s, t, left, right, same⟩ := bisimulation a b holds
  exact ⟨s, t, left, right, same.mono fun a _ b inner => ⟨related, bisimulation, inner⟩⟩

private theorem refl (closed : Closed types) (bound : a < types.length) : Bisimilar types a a := by
  refine ⟨fun a b => a = b ∧ a < types.length, ?_, rfl, bound⟩
  rintro a _ ⟨rfl, bound⟩
  have found : types[a]? = some types[a] := List.getElem?_eq_getElem bound
  refine ⟨types[a], types[a], found, found, SameLayer.refl _ fun inner member => ⟨rfl, ?_⟩⟩
  exact closed _ (List.getElem_mem bound) inner member

private theorem symm (bisimilar : Bisimilar types a b) : Bisimilar types b a := by
  obtain ⟨related, bisimulation, holds⟩ := bisimilar
  refine ⟨fun a b => related b a, ?_, holds⟩
  intro a b turned
  obtain ⟨s, t, left, right, same⟩ := bisimulation b a turned
  exact ⟨t, s, right, left, same.symm⟩

private theorem trans (first : Bisimilar types a b) (second : Bisimilar types b c) :
    Bisimilar types a c := by
  refine ⟨fun a c => ∃ b, Bisimilar types a b ∧ Bisimilar types b c, ?_, b, first, second⟩
  rintro a c ⟨b, first, second⟩
  obtain ⟨s, t, left, middle, upper⟩ := first.layer
  obtain ⟨t', u, middle', right, lower⟩ := second.layer
  -- Both layers are compared with the same type in the middle.
  obtain rfl : t = t' := Option.some.inj (middle.symm.trans middle')
  exact ⟨s, u, left, right, upper.trans lower⟩

end Bisimilar

/-! ### The comparison -/

/-- The layers of a pair agree, and its components are equal numbers or pairs of the list. -/
def Justified (types : List Ty) (pairs : List Pair) (pair : Pair) : Prop :=
  ∃ s t, types[pair.1]? = some s ∧ types[pair.2]? = some t ∧
    SameLayer (fun a b => a = b ∨ (a, b) ∈ pairs) s t

/-- A comparison that succeeds leaves a list of pairs in which everything it did not start with is
justified. -/
theorem exists_justified (types : List Ty) (assumed work : List Pair)
    (succeeds : equalFrom types assumed work = some true) :
    ∃ pairs, assumed ⊆ pairs ∧ (∀ pair ∈ work, pair.1 = pair.2 ∨ pair ∈ pairs) ∧
      ∀ pair ∈ pairs, pair ∈ assumed ∨ Justified types pairs pair := by
  -- Nothing is left, the first pair is settled, or its layers are compared.
  fun_induction equalFrom types assumed work with
  | case1 assumed => exact ⟨assumed, List.Subset.refl _, by simp, fun _ member => Or.inl member⟩
  | case2 assumed a b rest settled ih =>
    obtain ⟨pairs, grown, covered, justified⟩ := ih succeeds
    refine ⟨pairs, grown, ?_, justified⟩
    intro pair member
    rcases List.mem_cons.mp member with rfl | later
    · exact settled.imp id fun known => grown known
    · exact covered pair later
  | case3 assumed a b rest unsettled s t left right same ih =>
    obtain ⟨pairs, grown, covered, justified⟩ := ih succeeds
    have here : (a, b) ∈ pairs := grown List.mem_cons_self
    refine ⟨pairs, fun pair member => grown (List.mem_cons_of_mem _ member), ?_, ?_⟩
    · intro pair member
      rcases List.mem_cons.mp member with rfl | later
      · exact Or.inr here
      · exact covered pair (List.mem_append_right _ later)
    · intro pair member
      rcases justified pair member with known | checked
      · rcases List.mem_cons.mp known with rfl | earlier
        · -- The components of the pair were compared after it, so they are covered.
          refine Or.inr ⟨s, t, left, right, sameLayer_iff.mpr ⟨same, ?_⟩⟩
          simp only [sameShape, Bool.and_eq_true, decide_eq_true_eq] at same
          refine List.forall₂_iff_zip.mpr ⟨same.2, fun inner => ?_⟩
          exact covered _ (List.mem_append_left _ inner)
        · exact Or.inl earlier
      · exact Or.inr checked
  | case4 => simp at succeeds
  | case5 => simp at succeeds

/-- Bisimilar types are never told apart, whatever is assumed. -/
theorem equalFrom_of_bisimilar (types : List Ty) (assumed work : List Pair)
    (bisimilar : ∀ pair ∈ work, Bisimilar types pair.1 pair.2) :
    equalFrom types assumed work = some true := by
  fun_induction equalFrom types assumed work with
  | case1 => rfl
  | case2 assumed a b rest settled ih =>
    exact ih fun pair member => bisimilar pair (List.mem_cons_of_mem _ member)
  | case3 assumed a b rest unsettled s t left right same ih =>
    apply ih
    intro pair member
    rcases List.mem_append.mp member with inner | later
    · -- The types that stand inside of bisimilar types are bisimilar in pairs.
      obtain ⟨s', t', left', right', layer⟩ := (bisimilar (a, b) List.mem_cons_self).layer
      obtain rfl : s = s' := Option.some.inj (left.symm.trans left')
      obtain rfl : t = t' := Option.some.inj (right.symm.trans right')
      exact (List.forall₂_iff_zip.mp (sameLayer_iff.mp layer).2).2 inner
    · exact bisimilar pair (List.mem_cons_of_mem _ later)
  | case4 assumed a b rest unsettled s t left right different =>
    obtain ⟨s', t', left', right', layer⟩ := (bisimilar (a, b) List.mem_cons_self).layer
    obtain rfl : s = s' := Option.some.inj (left.symm.trans left')
    obtain rfl : t = t' := Option.some.inj (right.symm.trans right')
    exact absurd (sameLayer_iff.mp layer).1 different
  | case5 assumed a b rest unsettled missing =>
    obtain ⟨s, t, left, right, _⟩ := (bisimilar (a, b) List.mem_cons_self).layer
    exact (missing s t left right).elim

private theorem equalFrom_isSome (closed : Closed types) (assumed work : List Pair)
    (in_range : ∀ pair ∈ work, pair.1 < types.length ∧ pair.2 < types.length) :
    (equalFrom types assumed work).isSome := by
  fun_induction equalFrom types assumed work with
  | case1 => rfl
  | case2 assumed a b rest settled ih =>
    exact ih fun pair member => in_range pair (List.mem_cons_of_mem _ member)
  | case3 assumed a b rest unsettled s t left right same ih =>
    apply ih
    intro pair member
    rcases List.mem_append.mp member with inner | later
    · have ends := List.of_mem_zip inner
      exact ⟨closed s (List.mem_of_getElem? left) _ ends.1,
        closed t (List.mem_of_getElem? right) _ ends.2⟩
    · exact in_range pair (List.mem_cons_of_mem _ later)
  | case4 => rfl
  | case5 assumed a b rest unsettled missing =>
    obtain ⟨a_bound, b_bound⟩ := in_range (a, b) List.mem_cons_self
    exact (missing _ _ (List.getElem?_eq_getElem a_bound) (List.getElem?_eq_getElem b_bound)).elim

private theorem equal?_eq_true_iff (closed : Closed types) (bound : a < types.length) :
    equal? types a b = some true ↔ Bisimilar types a b := by
  constructor
  · intro succeeds
    obtain ⟨pairs, _, covered, justified⟩ := exists_justified types [] [(a, b)] succeeds
    -- The pairs form a bisimulation together with what is bisimilar anyway, such as equal numbers.
    refine ⟨fun a b => Bisimilar types a b ∨ (a, b) ∈ pairs, ?_, ?_⟩
    · rintro a b (bisimilar | listed)
      · obtain ⟨s, t, left, right, same⟩ := bisimilar.layer
        exact ⟨s, t, left, right, same.mono fun _ _ _ inner => Or.inl inner⟩
      · obtain ⟨s, t, left, right, same⟩ := (justified (a, b) listed).resolve_left List.not_mem_nil
        refine ⟨s, t, left, right, same.mono fun inner member other => ?_⟩
        rintro (rfl | listed)
        · exact Or.inl (.refl closed (closed s (List.mem_of_getElem? left) inner member))
        · exact Or.inr listed
    · rcases covered (a, b) List.mem_cons_self with same | listed
      · obtain rfl : a = b := same
        exact Or.inl (.refl closed bound)
      · exact Or.inr listed
  · intro bisimilar
    exact equalFrom_of_bisimilar types [] [(a, b)] (by simpa using bisimilar)

private theorem exists_equal? (closed : Closed types) (a_bound : a < types.length)
    (b_bound : b < types.length) :
    ∃ equal, equal? types a b = some equal ∧ (equal = true ↔ Bisimilar types a b) := by
  have decided := equalFrom_isSome closed [] [(a, b)] (by simpa using ⟨a_bound, b_bound⟩)
  obtain ⟨equal, found⟩ := Option.isSome_iff_exists.mp decided
  refine ⟨equal, found, ?_⟩
  rw [← equal?_eq_true_iff closed a_bound, equal?, found, Option.some.injEq]

end Ty

/-- The types of a linked module can always be compared, and those that are found equal are exactly
the bisimilar ones. So the comparison is an equivalence, also for recursive types. -/
theorem Table.typesEqual_iff_bisimilar (table : Table) (module : Module)
    (linked : table.link = .ok module) :
    (∀ a < module.types.length, ∀ b < module.types.length,
      ∃ equal, module.typesEqual? a b = some equal ∧
        (equal = true ↔ Ty.Bisimilar module.types a b)) ∧
    (∀ a < module.types.length, module.typesEqual? a a = some true) ∧
    (∀ a < module.types.length, ∀ b < module.types.length,
      module.typesEqual? a b = module.typesEqual? b a) ∧
    ∀ a < module.types.length, ∀ b < module.types.length, ∀ c < module.types.length,
      module.typesEqual? a b = some true → module.typesEqual? b c = some true →
        module.typesEqual? a c = some true := by
  have closed : Ty.Closed module.types := fun ty member inner inside =>
    (types_of_link linked).2 ty member inner (ty.components_subset_inners inside)
  refine ⟨?_, ?_, ?_, ?_⟩
  · exact fun a a_bound b b_bound => Ty.exists_equal? closed a_bound b_bound
  · exact fun a bound => (Ty.equal?_eq_true_iff closed bound).mpr (.refl closed bound)
  · intro a a_bound b b_bound
    -- Both answers are decided by the same question, because bisimilarity does not see the order.
    obtain ⟨forward, found, forward_iff⟩ := Ty.exists_equal? closed a_bound b_bound
    obtain ⟨backward, turned, backward_iff⟩ := Ty.exists_equal? closed b_bound a_bound
    have same : forward = backward := by
      rw [Bool.eq_iff_iff, forward_iff, backward_iff]
      exact ⟨.symm, .symm⟩
    rw [Module.typesEqual?, Module.typesEqual?, found, turned, same]
  · intro a a_bound b b_bound c _ first second
    have lower := (Ty.equal?_eq_true_iff closed a_bound).mp first
    have upper := (Ty.equal?_eq_true_iff closed b_bound).mp second
    exact (Ty.equal?_eq_true_iff closed a_bound).mpr (lower.trans upper)

/-- A list of numbers as a recursive type, the same type unrolled once, and a list of other
numbers. -/
def Table.lists : Table :=
  let list (width : UInt32) : TypeExpr :=
    .struct [.integer width, .pointer (.upref 1) 0] false
  let unrolled : TypeExpr :=
    .struct [.integer 32, .pointer (.struct [.integer 32, .pointer (.upref 3) 0] false) 0] false
  { types := [{ key := 10, ty := list 32 }, { key := 20, ty := unrolled },
    { key := 30, ty := list 64 }] }

theorem Table.lists_bisimilar : ∃ module, lists.link = .ok module ∧ module.types.length = 12 ∧
    Ty.Bisimilar module.types 0 1 ∧ ¬ Ty.Bisimilar module.types 1 2 := by
  have compared :
      (lists.link.toOption.map fun module =>
        (module.types.length, module.typesEqual? 0 1, module.typesEqual? 1 2)) =
      some (12, some true, some false) := by
    decide +kernel
  obtain ⟨module, linked, answers⟩ := exists_ok_of_toOption_map compared
  simp only [Prod.mk.injEq] at answers
  obtain ⟨count, same, different⟩ := answers
  have decided := (Table.typesEqual_iff_bisimilar lists module linked).1
  obtain ⟨_, first, first_iff⟩ := decided 0 (by omega) 1 (by omega)
  obtain ⟨_, second, second_iff⟩ := decided 1 (by omega) 2 (by omega)
  refine ⟨module, linked, count, ?_, ?_⟩
  · exact first_iff.mp (Option.some.inj (first.symm.trans same))
  · rw [← second_iff, Option.some.inj (second.symm.trans different)]
    exact Bool.false_ne_true

end FlowIR
