import FlowIR.Graph.Dot
import Mathlib.Tactic.Common

/-!
# DOT text can be read back

The text of a graph says which nodes and edges it was made from. This holds piece by piece: a text
that begins with a written piece says which piece it is and where it ends. A number ends where its
digits end. A label ends at the first quote without a backslash before it, and no label has such a
quote inside, whatever its characters are. A line begins with a blank, which neither the empty line
behind the nodes nor the brace behind the edges does.
-/
namespace FlowIR.Dot

/-! ### Pieces of text that show their end -/

/-- A text that begins with a written value says which value it is and what comes behind it. -/
structure Delimits {α : Type} (write : α → List Char) : Prop where
  split : ∀ {first second : α} {rest other : List Char},
    write first ++ rest = write second ++ other → first = second ∧ rest = other

namespace Delimits

variable {α β : Type} {write : α → List Char} {more : β → List Char}

theorem comp (delimits : Delimits write) {part : β → α} (injective : Function.Injective part) :
    Delimits fun value => write (part value) where
  split same := by
    obtain ⟨parts, remains⟩ := delimits.split same
    exact ⟨injective parts, remains⟩

/-- The same text may stand before all values. -/
theorem behind (delimits : Delimits write) (text : List Char) :
    Delimits fun value => text ++ write value where
  split same := by
    rw [List.append_assoc, List.append_assoc] at same
    exact delimits.split (List.append_cancel_left same)

theorem append (left : Delimits write) (right : Delimits more) :
    Delimits fun both : α × β => write both.1 ++ more both.2 where
  split := by
    rintro ⟨a, b⟩ ⟨c, d⟩ rest other same
    rw [List.append_assoc, List.append_assoc] at same
    obtain ⟨rfl, behind_left⟩ := left.split same
    obtain ⟨rfl, remains⟩ := right.split behind_left
    exact ⟨rfl, remains⟩

/-- The same text may stand behind all values. -/
theorem before (delimits : Delimits write) (text : List Char) :
    Delimits fun value => write value ++ text where
  split same := by
    rw [List.append_assoc, List.append_assoc] at same
    obtain ⟨value, remains⟩ := delimits.split same
    exact ⟨value, List.append_cancel_left remains⟩

/-- A list of values shows its end if none of them begins as what stands behind the list. -/
theorem list (delimits : Delimits write) (stop : Char)
    (begins : ∀ value, ∃ c, (write value).head? = some c ∧ c ≠ stop) :
    Delimits fun values : List α => values.flatMap write ++ [stop] := by
  have begins_otherwise : ∀ (value : α) (rest other : List Char),
      write value ++ rest ≠ stop :: other := by
    intro value rest other same
    obtain ⟨c, begins_here, different⟩ := begins value
    have heads := congrArg List.head? same
    rw [List.head?_append, begins_here] at heads
    exact different (Option.some.inj heads)
  constructor
  intro first
  -- The second list follows the first one element by element, up to the character behind both.
  induction first with
  | nil =>
    intro second rest other same
    cases second with
    | nil => exact ⟨rfl, by simpa using same⟩
    | cons value values =>
      simp only [List.flatMap_nil, List.flatMap_cons, List.nil_append, List.append_assoc,
        List.singleton_append] at same
      exact absurd same.symm (begins_otherwise _ _ _)
  | cons value values ih =>
    intro second rest other same
    cases second with
    | nil =>
      simp only [List.flatMap_nil, List.flatMap_cons, List.nil_append, List.append_assoc,
        List.singleton_append] at same
      exact absurd same (begins_otherwise _ _ _)
    | cons another others =>
      simp only [List.flatMap_cons, List.append_assoc] at same
      obtain ⟨rfl, remains⟩ := delimits.split same
      rw [← List.append_assoc, ← List.append_assoc] at remains
      obtain ⟨rfl, behind_both⟩ := ih remains
      exact ⟨rfl, behind_both⟩

end Delimits

/-! ### Labels -/

/-- A backslash takes the next character with it, and every other character stands for itself. -/
theorem delimits_escapeChar : Delimits escapeChar where
  split := by
    intro c d rest other same
    by_cases special : c = '\\' ∨ c = '"' <;> by_cases also : d = '\\' ∨ d = '"' <;>
      simp only [escapeChar, special, also, if_true, if_false, List.cons_append, List.nil_append,
        List.cons.injEq] at same
    · exact ⟨same.2.1, same.2.2⟩
    · exact absurd (Or.inl same.1.symm) also
    · exact absurd (Or.inl same.1) special
    · exact same

private theorem head?_escapeChar (c : Char) :
    ∃ first, (escapeChar c).head? = some first ∧ first ≠ '"' := by
  by_cases special : c = '\\' ∨ c = '"'
  · exact ⟨'\\', by simp [escapeChar, special], by decide⟩
  · exact ⟨c, by simp [escapeChar, special], fun quote => special (Or.inr quote)⟩

/-- The quote behind the text of a label is the first one that stands alone. -/
theorem delimits_quoted : Delimits fun text : String => text.toList.flatMap escapeChar ++ ['"'] :=
  (delimits_escapeChar.list '"' head?_escapeChar).comp fun _ _ => String.toList_injective

private theorem toList_labelled (text : String) :
    (labelled text).toList =
      "[label=\"".toList ++ ((text.toList.flatMap escapeChar ++ ['"']) ++ [']']) := by
  simp [labelled, escape]

private theorem delimits_labelled : Delimits fun text => (labelled text).toList := by
  simpa only [toList_labelled] using (delimits_quoted.before [']']).behind "[label=\"".toList

/-- The end of a line, with a label before it or without. -/
def lineEnd (text : Option String) : String := (text.map labelled).getD "" ++ "\n"

private theorem delimits_lineEnd : Delimits fun text => (lineEnd text).toList where
  split := by
    intro first second rest other same
    -- A label begins with a bracket, so one look tells whether there is one.
    cases first with
    | none =>
      cases second with
      | none => exact ⟨rfl, by simpa [lineEnd] using same⟩
      | some text => simp [lineEnd, labelled] at same
    | some text =>
      cases second with
      | none => simp [lineEnd, labelled] at same
      | some another =>
        simp only [lineEnd, Option.map_some, Option.getD_some, String.toList_append] at same
        obtain ⟨rfl, remains⟩ := (delimits_labelled.before _).split same
        exact ⟨rfl, remains⟩

private theorem head?_lineEnd (text : Option String) :
    ∃ first, (lineEnd text).toList.head? = some first ∧ first.isDigit = false := by
  cases text with
  | none => exact ⟨'\n', by simp [lineEnd], by decide⟩
  | some text => exact ⟨'[', by simp [lineEnd, labelled], by decide⟩

/-! ### Numbers -/

/-- Two equal texts agree on their parts up to the first character of another kind. -/
theorem append_inj_of_all {keep : Char → Bool} {first second rest other : List Char}
    (all_first : ∀ c ∈ first, keep c = true) (all_second : ∀ c ∈ second, keep c = true)
    (rest_begins : ∃ c, rest.head? = some c ∧ keep c = false)
    (other_begins : ∃ c, other.head? = some c ∧ keep c = false)
    (same : first ++ rest = second ++ other) : first = second ∧ rest = other := by
  have taken : ∀ {text behind : List Char}, (∀ c ∈ text, keep c = true) →
      (∃ c, behind.head? = some c ∧ keep c = false) → (text ++ behind).takeWhile keep = text := by
    rintro text behind all ⟨c, begins, ends⟩
    obtain ⟨more, rfl⟩ := List.head?_eq_some_iff.mp begins
    rw [List.takeWhile_append_of_pos all]
    simp [ends]
  have texts : first = second := by
    rw [← taken all_first rest_begins, same, taken all_second other_begins]
  subst texts
  exact ⟨rfl, List.append_cancel_left same⟩

/-- A number shows its end if no digit follows. -/
theorem delimits_number {α : Type} {more : α → List Char} (delimits : Delimits more)
    (begins : ∀ value, ∃ c, (more value).head? = some c ∧ c.isDigit = false) :
    Delimits fun both : Nat × α => Nat.toDigits 10 both.1 ++ more both.2 where
  split := by
    rintro ⟨number, value⟩ ⟨another, second⟩ rest other same
    simp only [List.append_assoc] at same
    have digits : ∀ number, ∀ c ∈ Nat.toDigits 10 number, c.isDigit = true :=
      fun _ _ => Nat.isDigit_of_mem_toDigits (by decide) (by decide)
    have heads : ∀ value rest, ∃ c, (more value ++ rest).head? = some c ∧ c.isDigit = false := by
      intro value rest
      obtain ⟨c, begins_here, no_digit⟩ := begins value
      exact ⟨c, by rw [List.head?_append, begins_here, Option.some_or], no_digit⟩
    -- Nothing behind a number can be taken for one more of its digits.
    obtain ⟨numbers, remains⟩ :=
      append_inj_of_all (digits number) (digits another) (heads value rest)
        (heads second other) same
    obtain rfl : number = another := by
      have values := congrArg (Nat.ofDigitChars 10 · 0) numbers
      simpa only [Nat.ofDigitChars_ten_toDigits] using values
    obtain ⟨rfl, behind_both⟩ := delimits.split remains
    exact ⟨rfl, behind_both⟩

private theorem toList_nodeName (id : Nat) :
    (nodeName id).toList = "Node_".toList ++ Nat.toDigits 10 id := by
  simp [nodeName, toString, Nat.toList_repr]

private theorem delimits_nodeName {α : Type} {more : α → List Char} (delimits : Delimits more)
    (begins : ∀ value, ∃ c, (more value).head? = some c ∧ c.isDigit = false) :
    Delimits fun both : Nat × α => (nodeName both.1).toList ++ more both.2 := by
  simpa only [toList_nodeName, List.append_assoc]
    using (delimits_number delimits begins).behind "Node_".toList

/-! ### Lines -/

theorem delimits_nodeLine :
    Delimits fun node : Nat × String => (nodeLine node.1 node.2).toList := by
  have named := delimits_nodeName (delimits_labelled.before "\n".toList) fun text =>
    ⟨'[', by simp [labelled], by decide⟩
  simpa only [nodeLine, String.toList_append, List.append_assoc] using named.behind "  ".toList

/-- The ends of an edge and its label. -/
def edgeParts {E : Type} (edge : Graph.Edge E) : Nat × Nat × E :=
  (edge.source, edge.target, edge.label)

private theorem edgeParts_injective {E : Type} : Function.Injective (edgeParts (E := E)) := by
  rintro ⟨source, target, label⟩ ⟨source', target', label'⟩ same
  simpa [edgeParts] using same

theorem delimits_edgeLine :
    Delimits fun edge : Graph.Edge (Option String) =>
      (edgeLine edge.source edge.target edge.label).toList := by
  have from_target := (delimits_nodeName delimits_lineEnd head?_lineEnd).behind " -> ".toList
  have from_source := delimits_nodeName from_target fun both => ⟨' ', by simp, by decide⟩
  have line := (from_source.behind "  ".toList).comp edgeParts_injective
  simpa only [edgeLine, edgeParts, lineEnd, String.toList_append, List.append_assoc] using line

/-! ### Graphs -/

private theorem toList_digraph (name : String) (nodes : List (Nat × String))
    (edges : List (Graph.Edge (Option String))) :
    (digraph name nodes edges).toList = ("digraph " ++ name ++ " \x7b\n").toList ++
      ((nodes.flatMap (fun node => (nodeLine node.1 node.2).toList) ++ ['\n']) ++
        (edges.flatMap (fun edge => (edgeLine edge.source edge.target edge.label).toList) ++
          ['\x7d'] ++ ['\n'])) := by
  unfold digraph
  simp [String.toList_join, List.flatMap_map]

/-- The text of a graph tells its nodes and its edges, both in order. -/
theorem digraph_inj {name : String} {nodes otherNodes : List (Nat × String)}
    {edges otherEdges : List (Graph.Edge (Option String))} :
    digraph name nodes edges = digraph name otherNodes otherEdges ↔
      nodes = otherNodes ∧ edges = otherEdges := by
  constructor
  · intro same
    have nodeLines := delimits_nodeLine.list '\n' fun node => ⟨' ', by simp [nodeLine], by decide⟩
    have edgeLines := delimits_edgeLine.list '\x7d' fun edge => ⟨' ', by simp [edgeLine], by decide⟩
    have texts := congrArg String.toList same
    rw [toList_digraph, toList_digraph] at texts
    obtain ⟨rfl, remains⟩ := nodeLines.split (List.append_cancel_left texts)
    obtain ⟨rfl, _⟩ := edgeLines.split remains
    exact ⟨rfl, rfl⟩
  · rintro ⟨rfl, rfl⟩
    rfl

end FlowIR.Dot

namespace FlowIR.Graph

/-- Two graphs under one name have the same text exactly if they list the same nodes with the same
printed labels and the same edges with the same printed labels, whatever the printers are and
whatever characters they give. -/
theorem toDot_eq_iff {N M E F : Type} (name : Option String) (left : Graph N E) (right : Graph M F)
    (leftNode : Nat → N → String) (leftEdge : E → Option String) (rightNode : Nat → M → String)
    (rightEdge : F → Option String) :
    left.toDot name leftNode leftEdge = right.toDot name rightNode rightEdge ↔
      left.nodes.map (fun (id, label) => (id, leftNode id label)) =
          right.nodes.map (fun (id, label) => (id, rightNode id label)) ∧
        left.edges.map (fun edge => Edge.mk edge.source edge.target (leftEdge edge.label)) =
          right.edges.map (fun edge => Edge.mk edge.source edge.target (rightEdge edge.label)) := by
  rw [toDot, toDot, Dot.digraph_inj]

end FlowIR.Graph
