import Mathlib.Order.WithBot
import LineBasic.Program.Outline
import LineBasic.Proofs.Preorder
import LineBasic.Proofs.Rounding
import LineBasic.Proofs.Walking

/-
  LineBasic.Proofs.PlainData — the plain data that show a tree or a program have all that is in it.

  (1) Plain data are compared by their contents (`Datum`): a mapping by what each key has, a number by its amount, whether
      it is an integer or a real. A node is a pair of its label and the mapping of its fields, or its label alone.
  (2) Data that are equal have equal labels and, field by field, equal data (`Outline.field_eq`), and the label tells the
      kind of a node, so that the fields tell the rest: of each sort of tree two with the same data are the same.
  (3) A program is told by the line that each number has (`Program.Threaded.lines_eq`), and its data have these lines.
-/

namespace LineBasic

/-! ## (1) Data -/

/-- A key of a mapping. -/
inductive Key where
  | name (spelling : String)
  | line (number : LineNumber)

/-- Text, a number by its amount, the label of a node, a tuple of data, or a mapping by what each key has. -/
inductive Datum where
  | text (characters : Text)
  | number (amount : WithTop ℚ)
  | label (kind : String)
  | tuple (items : List Datum)
  | mapping (entry : Key → Option Datum)

namespace Datum

def record (fields : List (String × Datum)) : Datum := mapping fun
  | .name spelling => fields.lookup spelling
  | .line _ => none

def table (rows : List (LineNumber × Datum)) : Datum := mapping fun
  | .line n => rows.lookup n
  | .name _ => none

end Datum

/-- The value of a number, infinity included. -/
def Binary64.amount (x : Binary64) : WithTop ℚ := if x = infinity then ⊤ else x.value

namespace Outline

mutual

def datum : Outline → Datum
  | text characters => .text characters
  | integer n => .number (n : ℚ)
  | real x => .number x.amount
  | tuple items => .tuple (data items)
  | node kind [] => .label kind
  | node kind (field :: fields) => .tuple [.label kind, .record (entries (field :: fields))]

def data : List Outline → List Datum
  | [] => []
  | item :: items => item.datum :: data items

def entries : List (String × Outline) → List (String × Datum)
  | [] => []
  | (name, value) :: fields => (name, value.datum) :: entries fields

end

end Outline

def LineOutline.datum (l : LineOutline) : Datum := .tuple [l.statement.datum, .number (l.next : ℚ)]

def ProgramOutline.datum (p : ProgramOutline) : Datum :=
  .record [("entry_line", .number (p.entry : ℚ)), ("lines", .table (p.lines.map fun l => (l.number, l.datum)))]

/-! ## (2) Trees -/

theorem Binary64.amount_inj {x y : Binary64} (h : x.amount = y.amount) : x = y := by
  unfold amount at h
  by_cases hx : x = infinity
  · by_cases hy : y = infinity
    · rw [hx, hy]
    · rw [if_pos hx, if_neg hy] at h
      cases h
  · by_cases hy : y = infinity
    · rw [if_neg hx, if_pos hy] at h
      cases h
    · rw [if_neg hx, if_neg hy] at h
      have values := WithTop.coe_injective h
      rw [value_eq, value_eq, div_left_inj' (by positivity)] at values
      have units : x.units = y.units := by exact_mod_cast values
      -- Each number is the nearest one to its own count of units.
      have shift (n k : ℕ) : n <<< k = n * 1 <<< k := by rw [Nat.shiftLeft_eq, Nat.shiftLeft_eq, Nat.one_mul]
      have whole (z : Binary64) : nearest z.units (1 <<< 1074) = z := nearest_exact (by decide) (shift z.units 1074)
      rw [← whole x, ← whole y, units]

namespace Outline

theorem data_eq (items : List Outline) : data items = items.map datum := by
  induction items with
  | nil => rfl
  | cons item items ih => rw [data, ih, List.map_cons]

theorem record_inj {fields fields' : List (String × Datum)} (h : Datum.record fields = .record fields') (name : String) :
    fields.lookup name = fields'.lookup name := by
  unfold Datum.record at h
  exact congrFun (Datum.mapping.inj h) (.name name)

theorem table_inj {rows rows' : List (LineNumber × Datum)} (h : Datum.table rows = .table rows') (n : LineNumber) :
    rows.lookup n = rows'.lookup n := by
  unfold Datum.table at h
  exact congrFun (Datum.mapping.inj h) (.line n)

/-- Nodes with the same data have the same kind, and the same data in each field. -/
theorem node_inj {kind kind' : String} {fields fields' : List (String × Outline)}
    (h : (node kind fields).datum = (node kind' fields').datum) :
    kind = kind' ∧ ∀ name, (entries fields).lookup name = (entries fields').lookup name := by
  cases fields with
  | nil =>
    cases fields' with
    | nil => exact ⟨Datum.label.inj h, fun name => rfl⟩
    | cons _ _ => cases h
  | cons _ _ =>
    cases fields' with
    | nil => cases h
    | cons _ _ =>
      obtain ⟨hk, hf⟩ := List.cons.inj (Datum.tuple.inj h)
      exact ⟨Datum.label.inj hk, fun name => record_inj (List.cons.inj hf).1 name⟩

theorem kind_eq {kind kind' : String} {fields fields' : List (String × Outline)}
    (h : (node kind fields).datum = (node kind' fields').datum) : kind = kind' := (node_inj h).1

theorem lookup_absent {fields : List (String × Datum)} {name : String} (h : name ∉ fields.map Prod.fst) :
    fields.lookup name = none := by
  refine List.lookup_eq_none_iff.mpr fun field hf => ?_
  simpa using fun same : name = field.1 => h (same ▸ List.mem_map_of_mem hf)

theorem eq_of_lookup {fields fields' : List (String × Datum)} (names : fields.map Prod.fst = fields'.map Prod.fst)
    (distinct : (fields.map Prod.fst).Nodup) (h : ∀ name, fields.lookup name = fields'.lookup name) : fields = fields' := by
  induction fields generalizing fields' with
  | nil => exact (List.map_eq_nil_iff.mp names.symm).symm
  | cons field fields ih =>
    obtain ⟨name, value⟩ := field
    cases fields' with
    | nil => cases names
    | cons field' fields' =>
      obtain ⟨name', value'⟩ := field'
      obtain ⟨rfl, behind⟩ := List.cons.inj names
      obtain ⟨absent, apart⟩ := List.nodup_cons.mp distinct
      obtain rfl : value = value' := by simpa using h name
      have others : ∀ other, fields.lookup other = fields'.lookup other := by
        intro other
        by_cases ho : other = name
        · subst ho
          rw [lookup_absent absent, lookup_absent (behind ▸ absent)]
        · have found := h other
          rwa [List.lookup_cons, List.lookup_cons, beq_false_of_ne ho] at found
      rw [ih behind apart others]

theorem entries_names (fields : List (String × Outline)) : (entries fields).map Prod.fst = fields.map Prod.fst := by
  induction fields with
  | nil => rfl
  | cons field fields ih => rw [entries, List.map_cons, List.map_cons, ih]

theorem entries_values (fields : List (String × Outline)) :
    (entries fields).map Prod.snd = fields.map fun f => f.2.datum := by
  induction fields with
  | nil => rfl
  | cons field fields ih => rw [entries, List.map_cons, List.map_cons, ih]

/-- Nodes with the same names of fields, in the same order, have the same data one by one. -/
theorem values_eq {kind kind' : String} {fields fields' : List (String × Outline)}
    (h : (node kind fields).datum = (node kind' fields').datum) (names : fields.map Prod.fst = fields'.map Prod.fst)
    (distinct : (fields.map Prod.fst).Nodup) : (fields.map fun f => f.2.datum) = fields'.map fun f => f.2.datum := by
  rw [← entries_names, ← entries_names] at names
  rw [← entries_names] at distinct
  rw [← entries_values, ← entries_values, eq_of_lookup names distinct (node_inj h).2]

@[simp] theorem datum_integer (n : Int) : (integer n).datum = .number (n : ℚ) := rfl

@[simp] theorem datum_real (x : Binary64) : (real x).datum = .number x.amount := rfl

@[simp] theorem datum_text (cs : Text) : (text cs).datum = .text cs := rfl

@[simp] theorem datum_word (spelling : String) : (word spelling).datum = .text spelling.toList := rfl

@[simp] theorem datum_name (c : Char) : (name c).datum = .text [c] := rfl

@[simp] theorem datum_tuple (items : List Outline) : (tuple items).datum = .tuple (items.map datum) := by
  rw [datum, data_eq]

@[simp] theorem datum_names (cs : List Char) : (names cs).datum = .tuple (cs.map fun c => .text [c]) := by
  rw [names, datum_tuple, List.map_map]
  rfl

@[simp] theorem datum_lines (ns : List LineNumber) :
    (lines ns).datum = .tuple (ns.map fun n : LineNumber => .number (n : ℚ)) := by
  rw [lines, datum_tuple, List.map_map]
  rfl

end Outline

open Outline

theorem BinaryOp.eq_of_datum {op op' : BinaryOp} (h : op.outline.datum = op'.outline.datum) : op = op' := by
  cases op <;> cases op' <;> simp [outline] at h ⊢

theorem Comparison.eq_of_datum {op op' : Comparison} (h : op.outline.datum = op'.outline.datum) : op = op' := by
  cases op <;> cases op' <;> simp [outline] at h ⊢

theorem Connective.eq_of_datum {op op' : Connective} (h : op.outline.datum = op'.outline.datum) : op = op' := by
  cases op <;> cases op' <;> simp [outline] at h ⊢

theorem BuiltIn.eq_of_spelling {f f' : BuiltIn} (h : f.spelling.toList = f'.spelling.toList) : f = f' := by
  cases f <;> cases f' <;> simp [spelling] at h ⊢

theorem Expression.eq_of_datum {e e' : Expression} (h : e.outline.datum = e'.outline.datum) : e = e' := by
  induction e generalizing e' with
  | integer n =>
    cases e' with
    | integer n' =>
      obtain rfl : n = n' := by simpa using values_eq h rfl (by simp)
      rfl
    | _ => exact absurd (kind_eq h) (by decide)
  | real x =>
    cases e' with
    | real x' =>
      have amount : x.amount = x'.amount := by simpa using values_eq h rfl (by simp)
      rw [Binary64.amount_inj amount]
    | _ => exact absurd (kind_eq h) (by decide)
  | scalar x =>
    cases e' with
    | scalar x' =>
      obtain rfl : x = x' := by simpa using values_eq h rfl (by simp)
      rfl
    | _ => exact absurd (kind_eq h) (by decide)
  | array x first second third fourth ih1 ih2 ih3 ih4 =>
    cases e' with
    | array x' first' second' third' fourth' =>
      obtain ⟨rfl, h1, h2, h3, h4⟩ : x = x' ∧ first.outline.datum = first'.outline.datum ∧
          second.outline.datum = second'.outline.datum ∧ third.outline.datum = third'.outline.datum ∧
          fourth.outline.datum = fourth'.outline.datum := by
        simpa using values_eq h rfl (by simp)
      rw [ih1 h1, ih2 h2, ih3 h3, ih4 h4]
    | _ => exact absurd (kind_eq h) (by decide)
  | binary op left right ihl ihr =>
    cases e' with
    | binary op' left' right' =>
      obtain ⟨ho, hl, hr⟩ : op.outline.datum = op'.outline.datum ∧ left.outline.datum = left'.outline.datum ∧
          right.outline.datum = right'.outline.datum := by
        simpa using values_eq h rfl (by simp)
      rw [BinaryOp.eq_of_datum ho, ihl hl, ihr hr]
    | _ => exact absurd (kind_eq h) (by decide)
  | call function argument ih =>
    cases e' with
    | call function' argument' =>
      obtain ⟨hf, ha⟩ : function.spelling.toList = function'.spelling.toList ∧
          argument.outline.datum = argument'.outline.datum := by
        simpa using values_eq h rfl (by simp)
      rw [BuiltIn.eq_of_spelling hf, ih ha]
    | _ => exact absurd (kind_eq h) (by decide)

theorem StringExpression.eq_of_datum {s s' : StringExpression} (h : s.outline.datum = s'.outline.datum) : s = s' := by
  induction s generalizing s' with
  | literal cs =>
    cases s' with
    | literal cs' =>
      obtain rfl : cs = cs' := by simpa using values_eq h rfl (by simp)
      rfl
    | _ => exact absurd (kind_eq h) (by decide)
  | number value =>
    cases s' with
    | number value' =>
      have same : value.outline.datum = value'.outline.datum := by simpa using values_eq h rfl (by simp)
      rw [Expression.eq_of_datum same]
    | _ => exact absurd (kind_eq h) (by decide)
  | tab column =>
    cases s' with
    | tab column' =>
      obtain rfl : column = column' := by simpa using values_eq h rfl (by simp)
      rfl
    | _ => exact absurd (kind_eq h) (by decide)
  | concat left right ihl ihr =>
    cases s' with
    | concat left' right' =>
      obtain ⟨hl, hr⟩ : left.outline.datum = left'.outline.datum ∧ right.outline.datum = right'.outline.datum := by
        simpa using values_eq h rfl (by simp)
      rw [ihl hl, ihr hr]
    | _ => exact absurd (kind_eq h) (by decide)
  | concatTab left right ihl ihr =>
    cases s' with
    | concatTab left' right' =>
      obtain ⟨hl, hr⟩ : left.outline.datum = left'.outline.datum ∧ right.outline.datum = right'.outline.datum := by
        simpa using values_eq h rfl (by simp)
      rw [ihl hl, ihr hr]
    | _ => exact absurd (kind_eq h) (by decide)
  | suppressNewline written ih =>
    cases s' with
    | suppressNewline written' =>
      have same : written.outline.datum = written'.outline.datum := by simpa using values_eq h rfl (by simp)
      rw [ih same]
    | _ => exact absurd (kind_eq h) (by decide)
  | trailingTab written ih =>
    cases s' with
    | trailingTab written' =>
      have same : written.outline.datum = written'.outline.datum := by simpa using values_eq h rfl (by simp)
      rw [ih same]
    | _ => exact absurd (kind_eq h) (by decide)

theorem Condition.eq_of_datum {c c' : Condition} (h : c.outline.datum = c'.outline.datum) : c = c' := by
  induction c generalizing c' with
  | compare op left right =>
    cases c' with
    | compare op' left' right' =>
      obtain ⟨ho, hl, hr⟩ : op.outline.datum = op'.outline.datum ∧ left.outline.datum = left'.outline.datum ∧
          right.outline.datum = right'.outline.datum := by
        simpa using values_eq h rfl (by simp)
      rw [Comparison.eq_of_datum ho, Expression.eq_of_datum hl, Expression.eq_of_datum hr]
    | _ => exact absurd (kind_eq h) (by decide)
  | connect op left right ihl ihr =>
    cases c' with
    | connect op' left' right' =>
      obtain ⟨ho, hl, hr⟩ : op.outline.datum = op'.outline.datum ∧ left.outline.datum = left'.outline.datum ∧
          right.outline.datum = right'.outline.datum := by
        simpa using values_eq h rfl (by simp)
      rw [Connective.eq_of_datum ho, ihl hl, ihr hr]
    | _ => exact absurd (kind_eq h) (by decide)

theorem ArrayReference.expression_inj {a a' : ArrayReference} (h : a.expression = a'.expression) : a = a' := by
  cases a
  cases a'
  simpa [expression] using h

theorem Target.expression_inj {t t' : Target} (h : t.expression = t'.expression) : t = t' := by
  cases t with
  | scalar name =>
    cases t' with
    | scalar name' => simpa [expression] using h
    | array element' => cases h
  | array element =>
    cases t' with
    | scalar name' => cases h
    | array element' => rw [ArrayReference.expression_inj h]

theorem arrays_inj {arrays arrays' : List ArrayReference}
    (h : (tuple (arrays.map fun a => a.expression.outline)).datum =
      (tuple (arrays'.map fun a => a.expression.outline)).datum) : arrays = arrays' := by
  rw [datum_tuple, datum_tuple, List.map_map, List.map_map] at h
  refine List.map_injective_iff.mpr (fun a a' same => ?_) (Datum.tuple.inj h)
  exact ArrayReference.expression_inj (Expression.eq_of_datum same)

theorem names_inj {cs cs' : List Char} (h : (names cs).datum = (names cs').datum) : cs = cs' := by
  rw [datum_names, datum_names] at h
  refine List.map_injective_iff.mpr (fun c c' same => ?_) (Datum.tuple.inj h)
  simpa using same

theorem lines_inj {ns ns' : List LineNumber} (h : (lines ns).datum = (lines ns').datum) : ns = ns' := by
  rw [datum_lines, datum_lines] at h
  refine List.map_injective_iff.mpr (fun n n' same => ?_) (Datum.tuple.inj h)
  simpa using same

theorem Statement.eq_of_datum {s s' : Statement} (h : s.outline.datum = s'.outline.datum) : s = s' := by
  induction s generalizing s' with
  | assign target value =>
    cases s' with
    | assign target' value' =>
      obtain ⟨ht, hv⟩ : target.expression.outline.datum = target'.expression.outline.datum ∧
          value.outline.datum = value'.outline.datum := by
        simpa using values_eq h rfl (by simp)
      rw [Target.expression_inj (Expression.eq_of_datum ht), Expression.eq_of_datum hv]
    | _ => exact absurd (kind_eq h) (by decide)
  | print written =>
    cases s' with
    | print written' =>
      have same : written.outline.datum = written'.outline.datum := by simpa using values_eq h rfl (by simp)
      rw [StringExpression.eq_of_datum same]
    | _ => exact absurd (kind_eq h) (by decide)
  | finish =>
    cases s' with
    | finish => rfl
    | _ => exact absurd (kind_eq h) (by decide)
  | goto line =>
    cases s' with
    | goto line' =>
      obtain rfl : line = line' := by simpa using values_eq h rfl (by simp)
      rfl
    | _ => exact absurd (kind_eq h) (by decide)
  | ifThen condition line =>
    cases s' with
    | ifThen condition' line' =>
      obtain ⟨hc, rfl⟩ : condition.outline.datum = condition'.outline.datum ∧ line = line' := by
        simpa using values_eq h rfl (by simp)
      rw [Condition.eq_of_datum hc]
    | _ => exact absurd (kind_eq h) (by decide)
  | forLoop counter start stop step =>
    cases s' with
    | forLoop counter' start' stop' step' =>
      obtain ⟨rfl, h1, h2, h3⟩ : counter = counter' ∧ start.outline.datum = start'.outline.datum ∧
          stop.outline.datum = stop'.outline.datum ∧ step.outline.datum = step'.outline.datum := by
        simpa using values_eq h rfl (by simp)
      rw [Expression.eq_of_datum h1, Expression.eq_of_datum h2, Expression.eq_of_datum h3]
    | _ => exact absurd (kind_eq h) (by decide)
  | nextLoop counters =>
    cases s' with
    | nextLoop counters' =>
      have same : (names counters).datum = (names counters').datum := by simpa using values_eq h rfl (by simp)
      rw [names_inj same]
    | _ => exact absurd (kind_eq h) (by decide)
  | input prompt names =>
    cases s' with
    | input prompt' names' =>
      obtain ⟨rfl, hn⟩ : prompt = prompt' ∧ (Outline.names names).datum = (Outline.names names').datum := by
        simpa using values_eq h rfl (by simp)
      rw [names_inj hn]
    | _ => exact absurd (kind_eq h) (by decide)
  | gosub line =>
    cases s' with
    | gosub line' =>
      obtain rfl : line = line' := by simpa using values_eq h rfl (by simp)
      rfl
    | _ => exact absurd (kind_eq h) (by decide)
  | returnSub =>
    cases s' with
    | returnSub => rfl
    | _ => exact absurd (kind_eq h) (by decide)
  | dim arrays =>
    cases s' with
    | dim arrays' =>
      have same := (List.cons.inj (values_eq h rfl (by simp))).1
      rw [arrays_inj same]
    | _ => exact absurd (kind_eq h) (by decide)
  | remark =>
    cases s' with
    | remark => rfl
    | _ => exact absurd (kind_eq h) (by decide)
  | onGoto selector lines =>
    cases s' with
    | onGoto selector' lines' =>
      obtain ⟨rfl, hl⟩ : selector = selector' ∧ (Outline.lines lines).datum = (Outline.lines lines').datum := by
        simpa using values_eq h rfl (by simp)
      rw [lines_inj hl]
    | _ => exact absurd (kind_eq h) (by decide)
  | sequence first rest ihf ihr =>
    cases s' with
    | sequence first' rest' =>
      obtain ⟨hf, hr⟩ : first.outline.datum = first'.outline.datum ∧ rest.outline.datum = rest'.outline.datum := by
        simpa using values_eq h rfl (by simp)
      rw [ihf hf, ihr hr]
    | _ => exact absurd (kind_eq h) (by decide)

namespace Node

/-- The kinds of a sort of tree. No two sorts share one. -/
def kinds : Node → List String
  | expression _ =>
    ["ExpressionInteger", "ExpressionReal", "ExpressionVariable", "ExpressionArray", "ExpressionBinary",
      "ExpressionFunction"]
  | string _ =>
    ["StringLiteral", "StringNumber", "StringTab", "StringConcat", "StringConcatTab", "StringTrailingSuppressNewline",
      "StringTrailingTab"]
  | condition _ => ["BooleanComparison", "BooleanLogical"]
  | statement _ =>
    ["StatementLet", "StatementPrint", "StatementEnd", "StatementGoto", "StatementIf", "StatementFor", "StatementNext",
      "StatementInput", "StatementGosub", "StatementReturn", "StatementDim", "StatementRem", "StatementOnGoto",
      "StatementSequence"]

theorem outline_eq (n : Node) : ∃ kind ∈ n.kinds, ∃ fields, n.outline = .node kind fields := by
  cases n with
  | expression e => cases e <;> exact ⟨_, by simp [kinds], _, rfl⟩
  | string s => cases s <;> exact ⟨_, by simp [kinds], _, rfl⟩
  | condition c => cases c <;> exact ⟨_, by simp [kinds], _, rfl⟩
  | statement s => cases s <;> exact ⟨_, by simp [kinds], _, rfl⟩

theorem kinds_meet {n m : Node} (h : n.outline.datum = m.outline.datum) : ∃ kind ∈ n.kinds, kind ∈ m.kinds := by
  obtain ⟨kind, hk, fields, hn⟩ := n.outline_eq
  obtain ⟨kind', hk', fields', hm⟩ := m.outline_eq
  rw [hn, hm] at h
  exact ⟨kind, hk, kind_eq h ▸ hk'⟩

theorem eq_of_datum {n m : Node} (h : n.outline.datum = m.outline.datum) : n = m := by
  have meet := kinds_meet h
  cases n with
  | expression e =>
    cases m with
    | expression e' => rw [Expression.eq_of_datum h]
    | _ => exact absurd meet (by simp [kinds])
  | string s =>
    cases m with
    | string s' => rw [StringExpression.eq_of_datum h]
    | _ => exact absurd meet (by simp [kinds])
  | condition c =>
    cases m with
    | condition c' => rw [Condition.eq_of_datum h]
    | _ => exact absurd meet (by simp [kinds])
  | statement s =>
    cases m with
    | statement s' => rw [Statement.eq_of_datum h]
    | _ => exact absurd meet (by simp [kinds])

end Node

/-! ## (3) Programs -/

namespace Program

variable {p p' : Program}

theorem Threaded.mem_lines (h : p.Threaded) {l : ProgramLine} : l ∈ p.lines ↔ p.line? l.number = some l :=
  ⟨h.line?_eq, List.mem_of_find?_eq_some⟩

theorem Threaded.pairwise (h : p.Threaded) : p.lines.Pairwise fun l m => l.number < m.number :=
  List.pairwise_map.mp h.ascending

/-- Programs are the same if they have the same line for every number. -/
theorem Threaded.lines_eq (h : p.Threaded) (h' : p'.Threaded) (same : ∀ n, p.line? n = p'.line? n) :
    p.lines = p'.lines := by
  have nodup {q : Program} (hq : q.Threaded) : q.lines.Nodup :=
    hq.pairwise.imp fun hlt heq => Int.ne_of_lt hlt (congrArg ProgramLine.number heq)
  have rearranged : p.lines.Perm p'.lines := by
    refine (List.perm_ext_iff_of_nodup (nodup h) (nodup h')).mpr fun l => ?_
    rw [h.mem_lines, h'.mem_lines, same]
  exact rearranged.eq_of_pairwise (fun _ _ _ _ hab hba => absurd hba (Int.lt_asymm hab)) h.pairwise h'.pairwise

/-- The data of a line without its number, which is the key. -/
def row (l : ProgramLine) : Datum := .tuple [l.statement.outline.datum, .number (l.next : ℚ)]

theorem datum_outline (p : Program) : p.outline.datum =
    .record [("entry_line", .number (p.entry : ℚ)), ("lines", .table (p.lines.map fun l => (l.number, row l)))] := by
  rw [ProgramOutline.datum, outline, List.map_map]
  rfl

theorem lookup_rows (p : Program) (n : LineNumber) :
    (p.lines.map fun l => (l.number, row l)).lookup n = (p.line? n).map row := by
  unfold line?
  induction p.lines with
  | nil => rfl
  | cons l lines ih =>
    rw [List.map_cons, List.lookup_cons, List.find?_cons, ih]
    by_cases h : l.number = n
    · simp [h]
    · simp [h, beq_false_of_ne (Ne.symm h)]

theorem row_inj {l l' : ProgramLine} (hn : l.number = l'.number) (h : row l = row l') : l = l' := by
  obtain ⟨hs, hx⟩ : l.statement.outline.datum = l'.statement.outline.datum ∧ l.next = l'.next := by
    simpa [row] using h
  cases l
  cases l'
  rw [ProgramLine.mk.injEq]
  exact ⟨hn, Statement.eq_of_datum hs, hx⟩

theorem number_of_line? {n : LineNumber} {l : ProgramLine} (h : p.line? n = some l) : l.number = n := by
  simpa using List.find?_some h

theorem line?_eq_of_rows (h : ∀ n, (p.line? n).map row = (p'.line? n).map row) (n : LineNumber) :
    p.line? n = p'.line? n := by
  have rows := h n
  cases hl : p.line? n with
  | none =>
    rw [hl] at rows
    exact (Option.map_eq_none_iff.mp rows.symm).symm
  | some l =>
    rw [hl] at rows
    obtain ⟨l', hl', same⟩ := Option.map_eq_some_iff.mp rows.symm
    rw [hl', row_inj ((number_of_line? hl).trans (number_of_line? hl').symm) same.symm]

theorem Threaded.eq_of_datum (h : p.Threaded) (h' : p'.Threaded) (hd : p.outline.datum = p'.outline.datum) : p = p' := by
  rw [datum_outline, datum_outline] at hd
  have entry : p.entry = p'.entry := by simpa using record_inj hd "entry_line"
  have rows : ∀ n, (p.line? n).map row = (p'.line? n).map row := by
    intro n
    have tables : Datum.table (p.lines.map fun l => (l.number, row l)) =
        .table (p'.lines.map fun l => (l.number, row l)) := by
      simpa [List.lookup_cons] using record_inj hd "lines"
    rw [← lookup_rows, ← lookup_rows]
    exact table_inj tables n
  have lines := h.lines_eq h' (line?_eq_of_rows rows)
  cases p
  cases p'
  rw [Program.mk.injEq]
  exact ⟨entry, lines⟩

end Program

/-- Two trees of any sort are the same if their plain data are, and so are two programs put together from numbered
    statements. -/
theorem outline_faithful :
    (∀ n m : Node, n.outline.datum = m.outline.datum ↔ n = m) ∧
    ∀ numbered numbered' p p' ws ws', assemble numbered = .ok (p, ws) → assemble numbered' = .ok (p', ws') →
      (p.outline.datum = p'.outline.datum ↔ p = p') := by
  refine ⟨fun n m => ⟨Node.eq_of_datum, fun h => by rw [h]⟩, fun numbered numbered' p p' ws ws' h h' => ⟨fun hd => ?_, ?_⟩⟩
  · exact (assemble_threaded h).1.eq_of_datum (assemble_threaded h').1 hd
  · intro same
    rw [same]

/-- An integer and a real that are the same number tell two programs apart, and the order of the source does not. -/
theorem outline_faithful_one :
    let one : Binary64 := ⟨0x3ff0000000000000, by decide⟩
    let whole : Statement := .print (.number (.integer 1))
    let fraction : Statement := .print (.number (.real one))
    (Outline.integer 1).datum = (Outline.real one).datum ∧
      (Node.statement whole).outline.datum ≠ (Node.statement fraction).outline.datum ∧
      ∃ p q r, assemble [(20, .goto 10), (10, whole)] = .ok (p, []) ∧
        assemble [(10, whole), (20, .goto 10)] = .ok (q, []) ∧ assemble [(20, .goto 10), (10, fraction)] = .ok (r, []) ∧
        p.outline.datum = q.outline.datum ∧ p.outline.datum ≠ r.outline.datum := by
  intro one whole fraction
  obtain ⟨trees, programs⟩ := outline_faithful
  have hp : assemble [(20, .goto 10), (10, whole)] = .ok (⟨10, [⟨10, whole, 20⟩, ⟨20, .goto 10, -1⟩]⟩, []) := rfl
  have hq : assemble [(10, whole), (20, .goto 10)] = .ok (⟨10, [⟨10, whole, 20⟩, ⟨20, .goto 10, -1⟩]⟩, []) := rfl
  have hr : assemble [(20, .goto 10), (10, fraction)] = .ok (⟨10, [⟨10, fraction, 20⟩, ⟨20, .goto 10, -1⟩]⟩, []) := rfl
  refine ⟨?_, fun h => ?_, _, _, _, hp, hq, hr, (programs _ _ _ _ _ _ hp hq).mpr rfl, fun h => ?_⟩
  · have amount : one.amount = ((1 : ℤ) : ℚ) := by
      unfold Binary64.amount
      rw [if_neg (by decide)]
      norm_num [Binary64.value, Binary64.significand, Binary64.exponent, one]
    rw [Outline.datum_integer, Outline.datum_real, amount]
  · exact absurd ((trees _ _).mp h) (by decide)
  · exact absurd ((programs _ _ _ _ _ _ hp hr).mp h) (by decide)

end LineBasic
