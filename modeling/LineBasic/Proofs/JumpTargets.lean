import LineBasic.Proofs.Ascending
import LineBasic.Proofs.Preorder

/-
  LineBasic.Proofs.JumpTargets — the lines that a tree refers to.

  A node has the lines that it jumps to itself (`mem_ownTargets`), and those of a tree are collected from all its nodes,
  wherever they stand (`mem_lineReferences`). Only statements jump, so there are none in an expression, a string or a
  condition, and a sequence has those of its two parts (`lineReferences_sequence`).
-/

namespace LineBasic

namespace Node

/-- Control may go from the node, which is a statement, to the line. -/
inductive JumpsTo : Node → LineNumber → Prop
  | goto (line : LineNumber) : JumpsTo (statement (.goto line)) line
  | gosub (line : LineNumber) : JumpsTo (statement (.gosub line)) line
  | ifThen (condition : Condition) (line : LineNumber) : JumpsTo (statement (.ifThen condition line)) line
  | onGoto (selector : Char) {lines : List LineNumber} {line : LineNumber} :
      line ∈ lines → JumpsTo (statement (.onGoto selector lines)) line

theorem mem_ownTargets {n : Node} {line : LineNumber} : line ∈ n.ownTargets ↔ n.JumpsTo line := by
  constructor
  · intro h
    cases n with
    | statement s =>
      cases s with
      | goto target =>
        obtain rfl := List.mem_singleton.mp h
        exact .goto line
      | gosub target =>
        obtain rfl := List.mem_singleton.mp h
        exact .gosub line
      | ifThen condition target =>
        obtain rfl := List.mem_singleton.mp h
        exact .ifThen condition line
      | onGoto selector lines => exact .onGoto selector h
      | _ => exact absurd h List.not_mem_nil
    | _ => exact absurd h List.not_mem_nil
  · intro h
    cases h with
    | onGoto selector h => exact h
    | _ => exact List.mem_singleton_self line

theorem mem_lineReferences {n : Node} {line : LineNumber} :
    line ∈ n.lineReferences ↔ ∃ way m, n.at? way = some m ∧ m.JumpsTo line := by
  rw [lineReferences, mem_ascending, List.mem_flatMap]
  constructor
  · rintro ⟨m, hm, hl⟩
    obtain ⟨way, hway⟩ := mem_nodes.mp hm
    exact ⟨way, m, hway, mem_ownTargets.mp hl⟩
  · rintro ⟨way, m, hway, hl⟩
    exact ⟨m, mem_nodes.mpr ⟨way, hway⟩, mem_ownTargets.mpr hl⟩

theorem lineReferences_eq (n : Node) : n.lineReferences = ascending (n.preorder.flatMap ownTargets) := by
  rw [lineReferences, nodes_eq]

end Node

/-! ## Only statements jump -/

open Node

theorem Expression.targets (e : Expression) : e.preorder.flatMap ownTargets = [] := by
  induction e with
  | array name first second third fourth h1 h2 h3 h4 => simp [preorder, ownTargets, h1, h2, h3, h4]
  | binary op left right hl hr => simp [preorder, ownTargets, hl, hr]
  | call function argument ih => simp [preorder, ownTargets, ih]
  | _ => rfl

theorem StringExpression.targets (s : StringExpression) : s.preorder.flatMap ownTargets = [] := by
  induction s with
  | number value => simp [preorder, ownTargets, value.targets]
  | concat left right hl hr => simp [preorder, ownTargets, hl, hr]
  | concatTab left right hl hr => simp [preorder, ownTargets, hl, hr]
  | suppressNewline written ih => simp [preorder, ownTargets, ih]
  | trailingTab written ih => simp [preorder, ownTargets, ih]
  | _ => rfl

theorem Condition.targets (c : Condition) : c.preorder.flatMap ownTargets = [] := by
  induction c with
  | compare op left right => simp [preorder, ownTargets, left.targets, right.targets]
  | connect op left right hl hr => simp [preorder, ownTargets, hl, hr]

theorem Statement.targets_sequence (first rest : Statement) :
    (sequence first rest).preorder.flatMap ownTargets =
      first.preorder.flatMap ownTargets ++ rest.preorder.flatMap ownTargets := by
  simp [preorder, ownTargets]

theorem Node.lineReferences_sequence (first rest : Statement) :
    (statement (.sequence first rest)).lineReferences =
      ascending ((statement first).lineReferences ++ (statement rest).lineReferences) := by
  rw [lineReferences_eq]
  refine ascending_congr fun line => ?_
  rw [preorder, Statement.targets_sequence, List.mem_append, List.mem_append, lineReferences_eq, lineReferences_eq,
    mem_ascending, mem_ascending]
  rfl

/-- The references of a tree ascend and are the lines that a node of the tree jumps to, at the end of any way. Trees that
    are no statements have none, and a sequence has those of its parts, each once and in ascending order. -/
theorem lineReferences_targets :
    (∀ n : Node, n.lineReferences.Pairwise (· < ·) ∧
      ∀ line, line ∈ n.lineReferences ↔ ∃ way m, n.at? way = some m ∧ m.JumpsTo line) ∧
    (∀ e, (Node.expression e).lineReferences = []) ∧ (∀ s, (Node.string s).lineReferences = []) ∧
    (∀ c, (Node.condition c).lineReferences = []) ∧
    ∀ first rest, (Node.statement (.sequence first rest)).lineReferences =
      ascending ((Node.statement first).lineReferences ++ (Node.statement rest).lineReferences) := by
  refine ⟨fun n => ⟨pairwise_ascending _, fun line => mem_lineReferences⟩, fun e => ?_, fun s => ?_, fun c => ?_,
    lineReferences_sequence⟩
  · rw [lineReferences_eq, Node.preorder, e.targets]
    rfl
  · rw [lineReferences_eq, Node.preorder, s.targets]
    rfl
  · rw [lineReferences_eq, Node.preorder, c.targets]
    rfl

end LineBasic
