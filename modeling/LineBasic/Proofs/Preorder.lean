import Mathlib.Tactic.Choose
import LineBasic.Tree.Outline

/-
  LineBasic.Proofs.Preorder — the nodes of a tree in their order.

  (1) By recursion over the tree (`Node.preorder`) a node comes first, then its children with all that is under them, and
      `children` are the nodes that the fields of the node hold, in the order of the fields (`outline_children`).
  (2) A visit of pending nodes yields the list of each of them in turn (`visit_eq`), so that the nodes of a tree are in
      preorder. A loop with a stack, which takes the last node and puts its children there in reverse, does the same, and
      it comes to its end (`drains_iff`).
  (3) A way down a tree is the list of the places to turn to. The nodes stand at the ends of all ways, and the ways
      ascend, a way before its continuations and left before right (`exists_ways`).
-/

namespace LineBasic

/-! ## (1) Recursion over the tree -/

def Expression.preorder : Expression → List Node
  | e@(array _ first second third fourth) =>
    .expression e :: (first.preorder ++ second.preorder ++ third.preorder ++ fourth.preorder)
  | e@(binary _ left right) => .expression e :: (left.preorder ++ right.preorder)
  | e@(call _ argument) => .expression e :: argument.preorder
  | e => [.expression e]

def StringExpression.preorder : StringExpression → List Node
  | s@(number value) => .string s :: value.preorder
  | s@(concat left right) => .string s :: (left.preorder ++ right.preorder)
  | s@(concatTab left right) => .string s :: (left.preorder ++ right.preorder)
  | s@(suppressNewline written) => .string s :: written.preorder
  | s@(trailingTab written) => .string s :: written.preorder
  | s => [.string s]

def Condition.preorder : Condition → List Node
  | c@(compare _ left right) => .condition c :: (left.preorder ++ right.preorder)
  | c@(connect _ left right) => .condition c :: (left.preorder ++ right.preorder)

def Statement.preorder : Statement → List Node
  | s@(assign target value) => .statement s :: (target.expression.preorder ++ value.preorder)
  | s@(print written) => .statement s :: written.preorder
  | s@(ifThen condition _) => .statement s :: condition.preorder
  | s@(forLoop _ start stop step) => .statement s :: (start.preorder ++ stop.preorder ++ step.preorder)
  | s@(dim arrays) => .statement s :: arrays.flatMap fun a => a.expression.preorder
  | s@(sequence first rest) => .statement s :: (first.preorder ++ rest.preorder)
  | s => [.statement s]

namespace Outline

def isNode : Outline → Bool
  | node _ _ => true
  | _ => false

/-- The nodes that a field holds: itself, or the nodes among the members of a tuple. -/
def held : Outline → List Outline
  | node kind fields => [node kind fields]
  | tuple items => items.filter isNode
  | _ => []

/-- The nodes that the fields hold, in the order of the fields. -/
def parts : Outline → List Outline
  | node _ fields => fields.flatMap fun f => f.2.held
  | _ => []

@[simp] theorem parts_node (kind : String) (fields : List (String × Outline)) :
    (node kind fields).parts = fields.flatMap fun f => f.2.held := rfl

@[simp] theorem held_integer (n : Int) : (integer n).held = [] := rfl

@[simp] theorem held_real (x : Binary64) : (real x).held = [] := rfl

@[simp] theorem held_text (cs : Text) : (text cs).held = [] := rfl

@[simp] theorem held_word (spelling : String) : (word spelling).held = [] := rfl

@[simp] theorem held_name (c : Char) : (name c).held = [] := rfl

@[simp] theorem held_names (cs : List Char) : (names cs).held = [] := by
  simp [names, held, name, isNode]

@[simp] theorem held_lines (ns : List LineNumber) : (lines ns).held = [] := by
  simp [lines, held, isNode]

theorem held_of_isNode {o : Outline} (h : o.isNode = true) : o.held = [o] := by
  cases o with
  | node kind fields => rfl
  | _ => cases h

end Outline

@[simp] theorem BinaryOp.held_outline (op : BinaryOp) : op.outline.held = [] := by
  cases op <;> rfl

@[simp] theorem Comparison.held_outline (op : Comparison) : op.outline.held = [] := by
  cases op <;> rfl

@[simp] theorem Connective.held_outline (op : Connective) : op.outline.held = [] := by
  cases op <;> rfl

theorem Expression.isNode_outline (e : Expression) : e.outline.isNode = true := by
  cases e <;> rfl

@[simp] theorem Expression.held_outline (e : Expression) : e.outline.held = [e.outline] :=
  Outline.held_of_isNode e.isNode_outline

@[simp] theorem StringExpression.held_outline (s : StringExpression) : s.outline.held = [s.outline] :=
  Outline.held_of_isNode (by cases s <;> rfl)

@[simp] theorem Condition.held_outline (c : Condition) : c.outline.held = [c.outline] :=
  Outline.held_of_isNode (by cases c <;> rfl)

@[simp] theorem Statement.held_outline (s : Statement) : s.outline.held = [s.outline] :=
  Outline.held_of_isNode (by cases s <;> rfl)

@[simp] theorem Outline.held_tuple (es : List Expression) :
    (tuple (es.map Expression.outline)).held = es.map Expression.outline := by
  refine List.filter_eq_self.mpr fun o ho => ?_
  obtain ⟨e, -, rfl⟩ := List.mem_map.mp ho
  exact e.isNode_outline

namespace Node

def preorder : Node → List Node
  | expression e => e.preorder
  | string s => s.preorder
  | condition c => c.preorder
  | statement s => s.preorder

theorem preorder_eq (n : Node) : n.preorder = n :: n.children.flatMap preorder := by
  cases n with
  | expression e => cases e <;> simp [preorder, Expression.preorder, children]
  | string s => cases s <;> simp [preorder, StringExpression.preorder, children]
  | condition c => cases c <;> simp [preorder, Condition.preorder, children]
  | statement s => cases s <;> simp [preorder, Statement.preorder, children, List.flatMap_map]

theorem outline_children (n : Node) : n.children.map outline = n.outline.parts := by
  cases n with
  | expression e =>
    cases e with
    | array name first second third fourth =>
      simpa [children, outline, Expression.outline] using (Outline.held_tuple [first, second, third, fourth]).symm
    | _ => simp [children, outline, Expression.outline]
  | string s => cases s <;> simp [children, outline, StringExpression.outline]
  | condition c => cases c <;> simp [children, outline, Condition.outline]
  | statement s =>
    cases s with
    | dim arrays =>
      simpa [children, outline, Statement.outline, Function.comp_def] using
        (Outline.held_tuple (arrays.map ArrayReference.expression)).symm
    | _ => simp [children, outline, Statement.outline]

/-! ## (2) Visiting -/

theorem visit_cons (n : Node) (pending : List Node) : visit (n :: pending) = n :: visit (n.children ++ pending) := by
  rw [visit]

/-- Whatever is pending, each of the nodes is visited with all that is under it before the next one. -/
theorem visit_eq (pending : List Node) : visit pending = pending.flatMap preorder := by
  fun_induction visit pending with
  | case1 => rfl
  | case2 n pending ih => rw [ih, List.flatMap_append, List.flatMap_cons, preorder_eq, List.cons_append]

theorem nodes_eq (n : Node) : n.nodes = n.preorder := by
  rw [nodes, visit_eq, List.flatMap_singleton]

/-- The loop with a stack yields these nodes: the last node of the stack is taken and visited, and its children are put on
    the stack, the last one first, until the stack is empty. -/
inductive Drains : List Node → List Node → Prop
  | empty : Drains [] []
  | take {stack visited : List Node} (n : Node) :
      Drains (stack ++ n.children.reverse) visited → Drains (stack ++ [n]) (n :: visited)

theorem drains_visit (pending : List Node) : Drains pending.reverse (visit pending) := by
  fun_induction visit pending with
  | case1 => exact .empty
  | case2 n pending ih =>
    rw [List.reverse_append] at ih
    rw [List.reverse_cons]
    exact .take n ih

theorem drains_iff {stack visited : List Node} : Drains stack visited ↔ visited = visit stack.reverse := by
  constructor
  · intro h
    induction h with
    | empty => rw [List.reverse_nil, visit]
    | take n _ ih => rw [ih, List.reverse_append, List.reverse_append, List.reverse_reverse, List.reverse_singleton,
        List.singleton_append, visit_cons]
  · rintro rfl
    simpa using drains_visit stack.reverse

/-! ## (3) Ways -/

/-- The node at the end of a way, which says at each node to which of its children to turn. -/
def at? (n : Node) : List Nat → Option Node
  | [] => some n
  | place :: way => n.children[place]?.bind fun child => child.at? way

theorem size_lt_of_mem {child n : Node} (h : child ∈ n.children) : child.size < n.size := by
  obtain ⟨before, after, hsplit⟩ := List.append_of_mem h
  have total := totalSize_children n
  rw [hsplit, totalSize_append, totalSize_cons] at total
  omega

/-- What holds of a node if it holds of its children holds of every node. -/
theorem children_induction {P : Node → Prop} (step : ∀ n : Node, (∀ child ∈ n.children, P child) → P n) (n : Node) : P n :=
  step n fun child _ => children_induction step child
termination_by n.size
decreasing_by exact size_lt_of_mem (by assumption)

/-- The ways to all nodes of a tree, in the order of the nodes. -/
structure Charts (n : Node) (ways : List (List Nat)) : Prop where
  ascending : ways.Pairwise (List.Lex (· < ·))
  complete : ∀ way, way ∈ ways ↔ (n.at? way).isSome
  lead : ways.map n.at? = n.preorder.map some

/-- The ways that first turn to one of the children. -/
def turns (ways : Node → List (List Nat)) (children : List Node) : List (List Nat) :=
  children.zipIdx.flatMap fun child => (ways child.1).map (child.2 :: ·)

theorem at?_cons {n child : Node} {place : Nat} (h : n.children[place]? = some child) (way : List Nat) :
    n.at? (place :: way) = child.at? way := by
  rw [at?, h, Option.bind_some]

theorem mem_turns {ways : Node → List (List Nat)} {children : List Node} {way : List Nat} :
    way ∈ turns ways children ↔
      ∃ child place rest, children[place]? = some child ∧ rest ∈ ways child ∧ way = place :: rest := by
  simp only [turns, List.mem_flatMap, List.mem_map, Prod.exists, List.mem_zipIdx_iff_getElem?]
  constructor
  · rintro ⟨child, place, hc, rest, hr, rfl⟩
    exact ⟨child, place, rest, hc, hr, rfl⟩
  · rintro ⟨child, place, rest, hc, hr, rfl⟩
    exact ⟨child, place, hc, rest, hr, rfl⟩

theorem pairwise_turns {ways : Node → List (List Nat)} {children : List Node}
    (h : ∀ child ∈ children, (ways child).Pairwise (List.Lex (· < ·))) :
    (turns ways children).Pairwise (List.Lex (· < ·)) := by
  refine List.pairwise_flatMap.mpr ⟨fun child hc => ?_, ?_⟩
  · refine List.pairwise_map.mpr ((h child.1 ?_).imp fun hlt => .cons hlt)
    exact List.fst_mem_of_mem_zipIdx hc
  · have places : (children.zipIdx.map Prod.snd).Pairwise (· < ·) := by
      rw [List.zipIdx_map_snd]
      exact List.pairwise_lt_range'
    refine (List.pairwise_map.mp places).imp fun hlt first hf second hs => ?_
    obtain ⟨_, -, rfl⟩ := List.mem_map.mp hf
    obtain ⟨_, -, rfl⟩ := List.mem_map.mp hs
    exact .rel hlt

theorem lead_turns {n : Node} {ways : Node → List (List Nat)}
    (h : ∀ child ∈ n.children, (ways child).map child.at? = child.preorder.map some) :
    (turns ways n.children).map n.at? = (n.children.flatMap preorder).map some := by
  have along : ∀ child ∈ n.children.zipIdx,
      ((ways child.1).map (child.2 :: ·)).map n.at? = child.1.preorder.map some := by
    intro child hc
    rw [← h child.1 (List.fst_mem_of_mem_zipIdx hc), List.map_map]
    exact List.map_congr_left fun way _ => at?_cons (List.mem_zipIdx_iff_getElem?.mp hc) way
  calc (turns ways n.children).map n.at?
      = n.children.zipIdx.flatMap fun child => child.1.preorder.map some := by
        rw [turns, List.map_flatMap, List.flatMap_def, List.flatMap_def, List.map_congr_left along]
    _ = (n.children.zipIdx.map Prod.fst).flatMap fun child => child.preorder.map some := by rw [List.flatMap_map]
    _ = (n.children.flatMap preorder).map some := by rw [List.zipIdx_map_fst, List.map_flatMap]

theorem exists_ways (n : Node) : ∃ ways, n.Charts ways := by
  induction n using children_induction with
  | step n ih =>
    choose! ways charts using ih
    refine ⟨[] :: turns ways n.children, ?_, fun way => ?_, ?_⟩
    · refine List.pairwise_cons.mpr ⟨fun way hw => ?_, pairwise_turns fun child hc => (charts child hc).ascending⟩
      obtain ⟨_, _, _, -, -, rfl⟩ := mem_turns.mp hw
      exact .nil
    · cases way with
      | nil => simp [at?]
      | cons place rest =>
        rw [List.mem_cons, mem_turns, at?]
        cases hc : n.children[place]? with
        | none => simp [hc]
        | some child => simp [hc, (charts child (List.mem_of_getElem? hc)).complete rest]
    · rw [List.map_cons, preorder_eq, List.map_cons, lead_turns fun child hc => (charts child hc).lead]
      rfl

theorem mem_nodes {m n : Node} : m ∈ n.nodes ↔ ∃ way, n.at? way = some m := by
  obtain ⟨ways, -, complete, lead⟩ := n.exists_ways
  have some_mem : m ∈ n.nodes ↔ some m ∈ ways.map n.at? := by
    rw [lead, nodes_eq]
    simp
  rw [some_mem, List.mem_map]
  constructor
  · rintro ⟨way, -, hm⟩
    exact ⟨way, hm⟩
  · rintro ⟨way, hm⟩
    exact ⟨way, (complete way).mpr (by rw [hm, Option.isSome_some]), hm⟩

end Node

/-- The nodes of a tree are those that the loop with a stack yields, which ends with them and nothing else. They are the
    node itself and then the nodes of its children, which are what its fields hold. So there is one of them for each way
    down the tree, a node in front of all that is under it, and all that is under a child in front of the next child. -/
theorem nodes_preorder (n : Node) :
    (∀ visited, Node.Drains [n] visited ↔ visited = n.nodes) ∧
    n.nodes = n.preorder ∧ n.nodes = n :: n.children.flatMap Node.nodes ∧
    n.children.map Node.outline = n.outline.parts ∧
    ∃ ways : List (List Nat), ways.Pairwise (List.Lex (· < ·)) ∧ (∀ way, way ∈ ways ↔ (n.at? way).isSome) ∧
      ways.map n.at? = n.nodes.map some := by
  have recursion : Node.nodes = Node.preorder := funext Node.nodes_eq
  refine ⟨fun visited => Node.drains_iff, n.nodes_eq, ?_, n.outline_children, ?_⟩
  · rw [recursion]
    exact n.preorder_eq
  · obtain ⟨ways, ascending, complete, lead⟩ := n.exists_ways
    rw [recursion]
    exact ⟨ways, ascending, complete, lead⟩

end LineBasic
