import LocalScope.Proofs.RoundTrip

/-! In an object names count and their order does not. What is read stays the same when members
change places, however deep inside, and when a node is given members that its kind does not have.
Only the fault that is reported, of several, depends on the order. -/
namespace LocalScope

open Json (Value)
open Relation

namespace Fields

variable {ρ α : Type} {R : ρ → ρ → Prop} {vs ws : List ρ}

/-- No field tells the two lists of values apart, if it takes related values for the same. -/
inductive Matched (R : ρ → ρ → Prop) : List ρ → List ρ → Prop
  | none : Matched R [] []
  | one {v w : ρ} (related : R v w) : Matched R [v] [w]
  | several {v v' w w' : ρ} {vs ws : List ρ} : Matched R (v :: v' :: vs) (w :: w' :: ws)

theorem Matched.only_eq (matched : Matched R vs ws) (absent : Option α) {read : ρ → Option α}
    (same : ∀ v w, R v w → read v = read w) : only absent read vs = only absent read ws := by
  cases matched with
  | none => rfl
  | one related => exact same _ _ related
  | several => rfl

theorem Matched.of_forall₂ (related : List.Forall₂ R vs ws) : Matched R vs ws := by
  cases related with
  | nil => exact .none
  | cons first rest =>
    cases rest with
    | nil => exact .one first
    | cons second more => exact .several

theorem Matched.of_perm (refl : ∀ v, R v v) (perm : vs.Perm ws) : Matched R vs ws := by
  cases vs with
  | nil =>
    obtain rfl := List.nil_perm.mp perm
    exact .none
  | cons v vs =>
    cases vs with
    | nil =>
      obtain rfl := List.singleton_perm.mp perm
      exact .one (refl v)
    | cons v' vs =>
      have length := perm.length_eq
      rcases ws with - | ⟨w, - | ⟨w', ws⟩⟩
      · simp at length
      · simp at length
      · exact .several

theorem valuesOf_perm {ms ws : List (String × ρ)} (perm : ms.Perm ws) (name : String) :
    (valuesOf name ms).Perm (valuesOf name ws) :=
  perm.filterMap _

theorem valuesOf_forall₂ {R : String → ρ → ρ → Prop} {ms ws : List (String × ρ)}
    (related : List.Forall₂ (fun m m' => m.1 = m'.1 ∧ R m.1 m.2 m'.2) ms ws) (name : String) :
    List.Forall₂ (R name) (valuesOf name ms) (valuesOf name ws) := by
  induction related with
  | nil => exact .nil
  | @cons m m' ms ws first rest ih =>
    obtain ⟨same, held⟩ := first
    rw [valuesOf_cons, valuesOf_cons, ← same]
    by_cases mine : m.1 = name
    · rw [if_pos mine, if_pos mine]
      exact .cons (mine ▸ held) ih
    · rwa [if_neg mine, if_neg mine]

theorem valuesOf_filter (keep : String → Bool) (name : String) (ms : List (String × ρ)) :
    valuesOf name (ms.filter fun m => keep m.1) = if keep name then valuesOf name ms else [] := by
  induction ms with
  | nil => simp
  | cons m rest ih =>
    by_cases mine : m.1 = name
    · subst mine
      cases kept : keep m.1 <;> simp [kept, ih]
    · cases kept : keep m.1 <;> simp [kept, ih, mine]

def once (read : ρ → Option α) : Option α → List ρ → Option (Option α)
  | given, [] => some given
  | none, v :: vs => (read v).bind fun x => once read (some x) vs
  | some _, _ :: _ => none

theorem once_bind {β : Type} (read : ρ → Option α) (default : α) (vs : List ρ)
    (f : α → Option β) :
    ((once read none vs).bind fun x => f (x.getD default)) =
      (only (some default) read vs).bind f := by
  rcases vs with - | ⟨v, - | ⟨v', vs⟩⟩
  · rfl
  · cases found : read v <;> simp [once, found]
  · cases found : read v <;> simp [once, only, found]

theorem once_join (read : ρ → Option α) (vs : List ρ) :
    (once read none vs).join = only none read vs := by
  rcases vs with - | ⟨v, - | ⟨v', vs⟩⟩
  · rfl
  · cases found : read v <;> simp [once, found]
  · cases found : read v <;> simp [once, only, found]

end Fields

namespace Read

namespace Header

def idOf (p : Part) : Option (Option UInt32) := (id? (.of p.value)).toOption

theorem take_named (h : Header) {m : String × Part} {name : NodeName}
    (own : NodeName.ofName? m.1 = some name) :
    (h.take m).toOption = if h.given name then none else (idOf m.2).map (h.setId name) := by
  cases given : h.given name <;> simp [take, own, refuseAgain, given, idOf]

def remaining {ρ : Type} (ms : List (String × ρ)) : List (String × ρ) :=
  ms.filter fun m => (NodeName.ofName? m.1).isNone

theorem remaining_named {ρ : Type} {m : String × ρ} {name : NodeName}
    (own : NodeName.ofName? m.1 = some name) (ms : List (String × ρ)) :
    remaining (m :: ms) = remaining ms := by
  simp [remaining, own]

/-- Each of the two numbers depends on the members of its own name alone. -/
theorem take_all (ms : List (String × Part)) (h : Header) :
    (ms.foldlM take h).toOption =
      (Fields.once idOf h.variableId (Fields.valuesOf "variable" ms)).bind fun v =>
        (Fields.once idOf h.memberId (Fields.valuesOf "member_reference" ms)).map fun m =>
          ⟨v, m, (remaining ms).reverse ++ h.others⟩ := by
  induction ms generalizing h with
  | nil => simp [pure, Except.pure, Fields.once, remaining]
  | cons m rest ih =>
    rw [List.foldlM_cons, Except.toOption_bind]
    by_cases first : m.1 = "variable"
    · have own : NodeName.ofName? m.1 = some .variableId := by simp [NodeName.ofName?, first]
      rw [take_named h own, remaining_named own]
      cases given : h.variableId with
      | some id => simp [Header.given, given, first, Fields.once]
      | none =>
        cases found : idOf m.2 <;> simp [Header.given, given, first, Fields.once, found, ih, setId]
    · by_cases second : m.1 = "member_reference"
      · have own : NodeName.ofName? m.1 = some .memberId := by simp [NodeName.ofName?, second]
        rw [take_named h own, remaining_named own]
        cases given : h.memberId with
        | some id => simp [Header.given, given, second, Fields.once]
        | none =>
          cases found : idOf m.2 <;>
            simp [Header.given, given, second, Fields.once, found, ih, setId]
      · have free : NodeName.ofName? m.1 = none := by simp [NodeName.ofName?, first, second]
        simp [take_other h free, ih, first, second, remaining, free, keep]

end Header

theorem takeKind_all (found : Option Tag) (ms : List (String × Part)) :
    (takeKind found ms).toOption =
      (Fields.once (fun p => (tag p.value).toOption) found (Fields.valuesOf "kind" ms)).join.map
        fun t => (t, ms.filter fun m => m.1 ≠ "kind") := by
  induction ms generalizing found with
  | nil => cases found <;> rfl
  | cons m rest ih =>
    by_cases mine : m.1 = "kind"
    · cases found with
      | some t => simp [takeKind, mine, Fields.once]
      | none =>
        cases named : tag m.2.value <;> simp [takeKind, mine, Fields.once, named, ih]
    · rw [takeKind_other mine, Except.toOption_bind, ih, Fields.valuesOf_cons, if_neg mine]
      cases (Fields.once _ found (Fields.valuesOf "kind" rest)).join <;> simp [mine]

def kindOf? (ms : List (String × Value)) : Option Tag :=
  Fields.only none (fun v => (tag v).toOption) (Fields.valuesOf "kind" ms)

def idOf? (name : String) (ms : List (String × Value)) : Option (Option UInt32) :=
  Fields.only (some none) (fun v => (id? (.of v)).toOption) (Fields.valuesOf name ms)

def unreserved (ms : List (String × Value)) : List (String × Value) :=
  ms.filter fun m => !isReserved m.1

theorem Header.body_toOption (h : Header) :
    h.body.toOption =
      (Fields.only none (fun p => (tag p.value).toOption)
        (Fields.valuesOf "kind" h.others.reverse)).bind fun t =>
          ((kind t).value? (h.others.reverse.filter fun m => m.1 ≠ "kind")).map (.node h.note) := by
  rw [Header.body, Except.toOption_bind, takeKind_all, Fields.once_join]
  cases Fields.only none _ (Fields.valuesOf "kind" h.others.reverse) <;> simp

theorem filter_remaining (ms : List (String × Value)) :
    ((Header.remaining (parts ms)).filter fun m => m.1 ≠ "kind") = parts (unreserved ms) := by
  rw [Header.remaining, unreserved, parts_eq, parts_eq, List.filter_filter, List.filter_map]
  congr 1
  apply List.filter_congr
  intro m _
  cases found : NodeName.ofName? m.1 <;> simp [isReserved, found]

theorem valuesOf_remaining (ms : List (String × Value)) :
    Fields.valuesOf "kind" (Header.remaining (parts ms)) =
      (Fields.valuesOf "kind" ms).map part := by
  have kept := Fields.valuesOf_filter (fun n => (NodeName.ofName? n).isNone) "kind" (parts ms)
  rw [Header.remaining, kept, parts_eq, Fields.valuesOf_map]
  rfl

/-- What is read from an object, without reference to the order of its members. -/
theorem body_object (ms : List (String × Value)) :
    (body (.object ms)).toOption =
      (idOf? "variable" ms).bind fun v =>
        (idOf? "member_reference" ms).bind fun m =>
          (kindOf? ms).bind fun t =>
            ((kind t).value? (parts (unreserved ms))).map
              (.node ⟨v.map VariableId.mk, m.map MemberId.mk⟩) := by
  have ids (name : String) : Fields.only (some none) Header.idOf (Fields.valuesOf name (parts ms)) =
      idOf? name ms := by
    rw [parts_eq, Fields.valuesOf_map, Fields.only_map]
    rfl
  have kinds : Fields.only none (fun p => (tag p.value).toOption)
      ((Fields.valuesOf "kind" ms).map part) = kindOf? ms := Fields.only_map none _ part _
  rw [body, Except.toOption_bind, Header.take_all, ← ids, ← ids, ← Fields.once_bind]
  simp only [← Fields.once_bind, Option.bind_assoc, Option.bind_map, Function.comp_def,
    Header.body_toOption, List.append_nil, List.reverse_reverse, filter_remaining,
    valuesOf_remaining, kinds]
  rfl

/-- What is looked for where a value stands: a node, a list of nodes, or neither. Some values are
not looked at. -/
inductive Expected where
  | node
  | nodes
  | plain
  | unread
deriving DecidableEq

def fieldsOf : Tag → List (String × Expected)
  | .block => [("statements", .nodes)]
  | .declaration => [("type", .plain), ("variables", .nodes), ("is_final", .plain)]
  | .binding => [("name", .plain), ("init", .node)]
  | .expressionStatement | .throw => [("expr", .node)]
  | .ifElse => [("cond", .node), ("then_block", .node), ("else_block", .node)]
  | .whileLoop | .doWhile => [("cond", .node), ("body", .node)]
  | .forLoop => [("init", .nodes), ("cond", .node), ("update", .nodes), ("body", .node)]
  | .forEach => [("type", .plain), ("variable", .plain), ("iterable", .node), ("body", .node)]
  | .tryCatch => [("body", .node), ("catches", .nodes), ("finally", .node)]
  | .catchClause => [("type", .plain), ("variable", .plain), ("body", .node)]
  | .switch => [("value", .node), ("sections", .nodes)]
  | .switchSection => [("labels", .nodes), ("body", .node)]
  | .synchronized => [("lock", .node), ("body", .node)]
  | .ret => [("value", .node)]
  | .identifier => [("name", .plain)]
  | .literal => [("value", .plain)]
  | .assignment | .binary => [("op", .plain), ("left", .node), ("right", .node)]
  | .unary => [("op", .plain), ("operand", .node)]
  | .invocation => [("target", .node), ("method", .plain), ("args", .nodes)]
  | .memberReference => [("target", .node), ("member", .plain)]
  | .index => [("target", .node), ("index", .node)]
  | .conditional => [("cond", .node), ("then_value", .node), ("else_value", .node)]
  | .cast => [("type", .plain), ("expr", .node)]
  | .creation => [("type", .plain), ("args", .nodes)]
  | .brk | .cont | .empty | .this | .super => []

theorem lookup_fieldsOf (t : Tag) :
    ∀ f ∈ fieldsOf t, (fieldsOf t).lookup f.1 = some f.2 ∧ f.2 ≠ .unread := by
  cases t <;> decide

/-- What two values have to have in common in a plain place, where no node is looked for. -/
structure SameLeaf (v w : Value) : Prop where
  string : (string v).toOption = (string w).toOption
  bool : (bool v).toOption = (bool w).toOption
  char : (char v).toOption = (char w).toOption
  int64 : (int64 v).toOption = (int64 w).toOption
  binary64 : (binary64 v).toOption = (binary64 w).toOption
  id : (id? (.of v)).toOption = (id? (.of w)).toOption
  tag : (tag v).toOption = (tag w).toOption
  noContent : (noContent .inBody (some v)).toOption = (noContent .inBody (some w)).toOption
  word : ∀ (α : Type) [Vocabulary α],
    (plainWord α .inBody v).toOption = (plainWord α .inBody w).toOption
  constant : (constant .inBody v).toOption = (constant .inBody w).toOption
  ty : (ty .inBody v).toOption = (ty .inBody w).toOption
  named : (named .inBody v).toOption = (named .inBody w).toOption
  tyList : (tyList .inBody v).toOption = (tyList .inBody w).toOption

namespace SameLeaf

theorem refl (v : Value) : SameLeaf v v := by
  constructor <;> intros <;> rfl

theorem tys_eq {vs ws : List Value} (same : List.Forall₂ SameLeaf vs ws) :
    (tys .inBody vs).toOption = (tys .inBody ws).toOption := by
  induction same with
  | nil => rfl
  | cons first rest ih => simp [tys, first.ty, ih]

theorem named_one (name : Value) :
    Read.named .inBody (.array [name]) = Read.string name >>= fun n => .ok (.named n []) :=
  rfl

theorem named_two (name args : Value) (rest : List Value) :
    Read.named .inBody (.array (name :: args :: rest)) =
      Read.string name >>= fun n => Read.tyList .inBody args >>= fun ts =>
        if rest.isEmpty then .ok (.named n ts)
        else .error (.wrongLength (rest.length + 2) "2 elements in sequence") :=
  rfl

theorem array {vs ws : List Value} (same : List.Forall₂ SameLeaf vs ws) :
    SameLeaf (.array vs) (.array ws) where
  string := rfl
  bool := rfl
  char := rfl
  int64 := rfl
  binary64 := rfl
  id := rfl
  tag := rfl
  noContent := rfl
  word _ _ := rfl
  constant := rfl
  ty := rfl
  named := by
    cases same with
    | nil => rfl
    | cons name rest =>
      cases rest with
      | nil => simp [named_one, name.string]
      | cons args more => cases more <;> simp [named_two, name.string, args.tyList]
  tyList := tys_eq same

def tyPart (v : Value) : TyPart := ⟨v, Read.tyList .inBody v⟩

theorem tyParts_eq (ms : List (String × Value)) :
    tyParts .inBody ms = ms.map fun m => (m.1, tyPart m.2) := by
  induction ms with
  | nil => rfl
  | cons m rest ih => simp [tyParts, tyPart, ih]

theorem named_object (ms : List (String × Value)) :
    (Read.named .inBody (.object ms)).toOption =
      (Fields.only none (fun v => (Read.string v).toOption) (Fields.valuesOf "name" ms)).bind
        fun name =>
          (Fields.only (some []) (fun v => (Read.tyList .inBody v).toOption)
            (Fields.valuesOf "args" ms)).map (.named name) := by
  rw [Write.read_named, Fields.run_toOption, namedFields, Fields.value?_seq, Fields.value?_map,
    Fields.value?_required, Fields.value?_withDefault, tyParts_eq, Fields.valuesOf_map,
    Fields.valuesOf_map, Fields.only_map, Fields.only_map, Option.bind_map]
  rfl

section

variable {ms ws : List (String × Value)}

theorem of_one_member {α : Type} (read : List (String × Value) → Option α)
    (whole : Fields.Matched (fun m m' => m.1 = m'.1 ∧ SameLeaf m.2 m'.2) ms ws)
    (one : ∀ n v w, SameLeaf v w → read [(n, v)] = read [(n, w)])
    (several : ∀ m m' ms, read (m :: m' :: ms) = none) : read ms = read ws := by
  cases whole with
  | none => rfl
  | @one m m' related =>
    obtain ⟨n, v⟩ := m
    obtain ⟨n', w⟩ := m'
    obtain ⟨rfl, same⟩ := related
    exact one _ v w same
  | several => rw [several, several]

theorem object
    (whole : Fields.Matched (fun m m' => m.1 = m'.1 ∧ SameLeaf m.2 m'.2) ms ws)
    (each : ∀ name, Fields.Matched SameLeaf (Fields.valuesOf name ms) (Fields.valuesOf name ws)) :
    SameLeaf (.object ms) (.object ws) where
  string := rfl
  bool := rfl
  char := rfl
  int64 := rfl
  binary64 := rfl
  id := rfl
  tag := rfl
  noContent := by cases whole <;> rfl
  word α _ := by
    refine of_one_member (fun ms => (plainWord α .inBody (.object ms)).toOption) whole ?_
      fun _ _ _ => rfl
    intro n v w same
    cases known : (Vocabulary.ofSpelling? n : Option α) <;>
      simp [plainWord, Read.word, known, same.noContent]
  constant := by
    refine of_one_member (fun ms => (Read.constant .inBody (.object ms)).toOption) whole ?_
      fun _ _ _ => rfl
    intro n v w same
    simp [Read.constant, Read.word, Read.content, apply_ite Except.toOption, same.noContent,
      same.bool, same.int64, same.binary64, same.char, same.string]
  ty := by
    refine of_one_member (fun ms => (Read.ty .inBody (.object ms)).toOption) whole ?_
      fun _ _ _ => rfl
    intro n v w same
    simp [Read.ty, apply_ite Except.toOption, same.word, same.named, same.ty]
  named := by
    rw [named_object, named_object, (each "name").only_eq none fun v w same => same.string,
      (each "args").only_eq (some []) fun v w same => same.tyList]
  tyList := rfl

end

end SameLeaf

/-- What two values have to have in common where a node is looked for, which may be absent. -/
structure SameNode (v w : Value) : Prop where
  body : (body v).toOption = (body w).toOption
  child : Write.child? v = Write.child? w

namespace Expected

/-- Whether two values are read as the same. -/
def Agrees : Expected → Value → Value → Prop
  | node, v, w => SameNode v w
  | nodes, v, w => (bodyList v).toOption = (bodyList w).toOption
  | plain, v, w => SameLeaf v w
  | unread, _, _ => True

theorem Agrees.refl (r : Expected) (v : Value) : r.Agrees v v := by
  cases r with
  | node => exact ⟨rfl, rfl⟩
  | nodes => rfl
  | plain => exact SameLeaf.refl v
  | unread => trivial

def element : Expected → Expected
  | nodes => node
  | node | plain => plain
  | unread => unread

/-- What is looked for in a member. In a node this depends on the kind, which stands in another
member. -/
def member (ms : List (String × Value)) (name : String) : Expected → Expected
  | node =>
    if isReserved name then plain
    else ((kindOf? ms).bind fun t => (fieldsOf t).lookup name).getD unread
  | nodes | plain => plain
  | unread => unread

theorem member_foreign {ms : List (String × Value)} {name : String} (free : isReserved name = false)
    (foreign : ∀ t, kindOf? ms = some t → name ∉ (fieldsOf t).map Prod.fst) :
    node.member ms name = unread := by
  rw [member, free]
  cases known : kindOf? ms with
  | none => rfl
  | some t =>
    have missing : (fieldsOf t).lookup name = none := by
      rw [List.lookup_eq_none_iff]
      intro x listed
      simpa using fun same : name = x.1 => foreign t known (same ▸ List.mem_map_of_mem listed)
    simp [missing]

end Expected

/-- What is read depends on these members only, and on each as far as is looked for in it. -/
def ReadsOnly {α : Type} (fields : List (String × Expected)) (f : Fields Part α) : Prop :=
  ∀ ms ws : List (String × Value),
    (∀ x ∈ fields, Fields.Matched x.2.Agrees (Fields.valuesOf x.1 ms) (Fields.valuesOf x.1 ws)) →
    f.value? (parts ms) = f.value? (parts ws)

namespace ReadsOnly

variable {α β : Type} {fields : List (String × Expected)}

theorem pure (x : α) : ReadsOnly fields (Pure.pure x) := fun _ _ _ => rfl

theorem map {g : α → β} {x : Fields Part α} (reads : ReadsOnly fields x) :
    ReadsOnly fields (g <$> x) := by
  intro ms ws matched
  rw [Fields.value?_map, Fields.value?_map, reads ms ws matched]

theorem seq {f : Fields Part (α → β)} {x : Fields Part α} (first : ReadsOnly fields f)
    (second : ReadsOnly fields x) : ReadsOnly fields (f <*> x) := by
  intro ms ws matched
  rw [Fields.value?_seq, Fields.value?_seq, first ms ws matched, second ms ws matched]

section

variable {name : String} {r : Expected} {read : Part → Reading α} (listed : (name, r) ∈ fields)
  (same : ∀ v w, r.Agrees v w → (read (part v)).toOption = (read (part w)).toOption)

include listed same

theorem required : ReadsOnly fields (.required name read) := by
  intro ms ws matched
  rw [Write.value?_required, Write.value?_required, (matched _ listed).only_eq none same]

theorem withDefault {default : α} : ReadsOnly fields (.withDefault name default read) := by
  intro ms ws matched
  rw [Write.value?_withDefault, Write.value?_withDefault, (matched _ listed).only_eq _ same]

end

variable {name : String}

theorem node (listed : (name, Expected.node) ∈ fields) : ReadsOnly fields (Read.node name) :=
  required listed fun _ _ same => same.body

theorem node? (listed : (name, Expected.node) ∈ fields) : ReadsOnly fields (Read.node? name) := by
  intro ms ws matched
  rw [Write.value?_node?, Write.value?_node?,
    (matched _ listed).only_eq _ fun _ _ same => SameNode.child same]

theorem nodes (listed : (name, Expected.nodes) ∈ fields) : ReadsOnly fields (Read.nodes name) :=
  required listed fun _ _ same => same

theorem nodesOrNone (listed : (name, Expected.nodes) ∈ fields) :
    ReadsOnly fields (Read.nodesOrNone name) := by
  refine withDefault listed ?_
  exact fun _ _ same => same

theorem text (listed : (name, Expected.plain) ∈ fields) : ReadsOnly fields (Read.text name) :=
  required listed fun _ _ same => same.string

theorem tyField (listed : ("type", Expected.plain) ∈ fields) : ReadsOnly fields Read.tyField :=
  required listed fun _ _ same => same.ty

theorem wordField [Vocabulary α] (listed : ("op", Expected.plain) ∈ fields) :
    ReadsOnly fields (Read.wordField α) :=
  required listed fun _ _ same => same.word α

end ReadsOnly

theorem kind_readsOnly (t : Tag) : ReadsOnly (fieldsOf t) (kind t) := by
  cases t with
  | declaration =>
    have isFinal : ReadsOnly (fieldsOf .declaration)
        (.withDefault "is_final" false fun part => bool part.value) :=
      .withDefault (r := .plain) (by decide) fun _ _ same => same.bool
    exact ((ReadsOnly.tyField (by decide)).map.seq (.nodes (by decide))).seq isFinal
  | literal =>
    exact .map (.required (r := .plain) (by decide) fun _ _ same => same.constant)
  | assignment =>
    have op : ReadsOnly (fieldsOf .assignment)
        (.withDefault "op" .plain fun part => plainWord AssignOp .inBody part.value) :=
      .withDefault (r := .plain) (by decide) fun _ _ same => same.word AssignOp
    exact (op.map.seq (.node (by decide))).seq (.node (by decide))
  | _ =>
    unfold kind
    repeat' with_reducible first
      | apply ReadsOnly.pure
      | apply ReadsOnly.map
      | apply ReadsOnly.seq
      | apply ReadsOnly.node
      | apply ReadsOnly.node?
      | apply ReadsOnly.nodes
      | apply ReadsOnly.nodesOrNone
      | apply ReadsOnly.text
      | apply ReadsOnly.tyField
      | apply ReadsOnly.wordField
    all_goals decide

def SameMembers (ms ws : List (String × Value)) : Prop :=
  ∀ name, Expected.node.member ms name ≠ .unread →
    Fields.Matched (Expected.node.member ms name).Agrees (Fields.valuesOf name ms)
      (Fields.valuesOf name ws)

namespace SameMembers

variable {ms ws : List (String × Value)}

theorem matched (found : SameMembers ms ws) {name : String} {r : Expected}
    (sought : Expected.node.member ms name = r) (looked : r ≠ .unread) :
    Fields.Matched r.Agrees (Fields.valuesOf name ms) (Fields.valuesOf name ws) := by
  subst sought
  exact found name looked

theorem reserved (found : SameMembers ms ws) {name : String} (own : isReserved name = true) :
    Fields.Matched SameLeaf (Fields.valuesOf name ms) (Fields.valuesOf name ws) :=
  found.matched (r := .plain) (if_pos own) (by decide)

theorem idOf?_eq (found : SameMembers ms ws) {name : String} (own : isReserved name = true) :
    idOf? name ms = idOf? name ws :=
  (found.reserved own).only_eq (some none) fun _ _ same => same.id

theorem kindOf?_eq (found : SameMembers ms ws) : kindOf? ms = kindOf? ws :=
  (found.reserved rfl).only_eq none fun _ _ same => same.tag

theorem fields_eq (found : SameMembers ms ws) {t : Tag} (known : kindOf? ms = some t) :
    (kind t).value? (parts (unreserved ms)) = (kind t).value? (parts (unreserved ws)) := by
  apply kind_readsOnly t
  intro x listed
  have left := Fields.valuesOf_filter (fun n => !isReserved n) x.1 ms
  have right := Fields.valuesOf_filter (fun n => !isReserved n) x.1 ws
  rw [unreserved, unreserved, left, right]
  cases own : isReserved x.1 with
  | true => exact .none
  | false =>
    obtain ⟨entry, looked⟩ := lookup_fieldsOf t x listed
    exact found.matched (by simp [Expected.member, own, known, entry]) looked

theorem object (found : SameMembers ms ws) : SameNode (.object ms) (.object ws) := by
  have same : (body (.object ms)).toOption = (body (.object ws)).toOption := by
    rw [body_object, body_object, found.idOf?_eq rfl, found.idOf?_eq rfl, ← found.kindOf?_eq]
    cases known : kindOf? ms with
    | none => rfl
    | some t => simp only [Option.bind_some, found.fields_eq known]
  exact ⟨same, congrArg (Option.map some) same⟩

end SameMembers

/-- One change of a value. The members of an object are put in another order, or a node is given a
member under a name that is neither reserved nor one of a field of its kind, or such a change is
made further inside. What is not looked at may become anything. -/
inductive Change : Expected → Value → Value → Prop
  | reorder {r : Expected} {ms ws : List (String × Value)} (perm : ms.Perm ws) :
    Change r (.object ms) (.object ws)
  | add {ms : List (String × Value)} {name : String} (v : Value) (free : isReserved name = false)
    (foreign : ∀ t, kindOf? ms = some t → name ∉ (fieldsOf t).map Prod.fst) :
    Change .node (.object ms) (.object ((name, v) :: ms))
  | element {r : Expected} {v w : Value} (before after : List Value)
    (change : Change r.element v w) :
    Change r (.array (before ++ v :: after)) (.array (before ++ w :: after))
  | member {r : Expected} {name : String} {v w : Value} (before after : List (String × Value))
    (change : Change (r.member (before ++ (name, v) :: after) name) v w) :
    Change r (.object (before ++ (name, v) :: after)) (.object (before ++ (name, w) :: after))
  | unread (v w : Value) : Change .unread v w

theorem forall₂_replace {α : Type} {R : α → α → Prop} (refl : ∀ x, R x x) {x y : α}
    (related : R x y) (before after : List α) :
    List.Forall₂ R (before ++ x :: after) (before ++ y :: after) := by
  have same (xs : List α) : List.Forall₂ R xs xs := List.forall₂_same.mpr fun x _ => refl x
  exact List.rel_append (same before) (.cons related (same after))

theorem bodies_eq {vs ws : List Value} (same : List.Forall₂ SameNode vs ws) :
    (bodies vs).toOption = (bodies ws).toOption := by
  induction same with
  | nil => rfl
  | cons first rest ih => simp [bodies, first.body, ih]

theorem Change.agrees {r : Expected} {v w : Value} (change : Change r v w) : r.Agrees v w := by
  -- Along the change: an outer object has the same readings once its changed member has.
  induction change with
  | @reorder r ms ws perm =>
    have each (r : Expected) (name : String) :
        Fields.Matched r.Agrees (Fields.valuesOf name ms) (Fields.valuesOf name ws) :=
      .of_perm (Expected.Agrees.refl r) (Fields.valuesOf_perm perm name)
    cases r with
    | node => exact SameMembers.object fun name _ => each _ name
    | nodes => rfl
    | plain => exact .object (.of_perm (fun m => ⟨rfl, .refl m.2⟩) perm) (each .plain)
    | unread => trivial
  | @add ms name v free foreign =>
    refine SameMembers.object fun other looked => ?_
    have apart : name ≠ other := fun same => looked (same ▸ Expected.member_foreign free foreign)
    rw [Fields.valuesOf_cons, if_neg apart]
    exact .of_perm (Expected.Agrees.refl _) (.refl _)
  | @element r v w before after change ih =>
    cases r with
    | node => exact ⟨rfl, rfl⟩
    | nodes => exact bodies_eq (forall₂_replace (Expected.Agrees.refl .node) ih before after)
    | plain => exact .array (forall₂_replace SameLeaf.refl ih before after)
    | unread => trivial
  | @member r name v w before after change ih =>
    have members : List.Forall₂ (fun m m' => m.1 = m'.1 ∧
          (r.member (before ++ (name, v) :: after) m.1).Agrees m.2 m'.2)
        (before ++ (name, v) :: after) (before ++ (name, w) :: after) :=
      forall₂_replace (fun m => ⟨rfl, Expected.Agrees.refl _ m.2⟩) (by exact ⟨rfl, ih⟩) before after
    have each (other : String) :
        Fields.Matched (r.member (before ++ (name, v) :: after) other).Agrees
          (Fields.valuesOf other (before ++ (name, v) :: after))
          (Fields.valuesOf other (before ++ (name, w) :: after)) :=
      .of_forall₂ (Fields.valuesOf_forall₂
        (R := fun other => (r.member (before ++ (name, v) :: after) other).Agrees) members other)
    cases r with
    | node => exact SameMembers.object fun name _ => each name
    | nodes => rfl
    | plain => exact .object (.of_forall₂ members) each
    | unread => trivial
  | unread v w => trivial

/-- Whatever is put in another order or added, the same node is read, or none. -/
theorem body_of_changes {v w : Value} (changes : ReflTransGen (Change .node) v w) (b : Body) :
    body v = .ok b ↔ body w = .ok b := by
  have same : (body v).toOption = (body w).toOption := by
    induction changes with
    | refl => rfl
    | tail _ change ih => exact ih.trans change.agrees.body
  rw [← Except.toOption_eq_some, same, Except.toOption_eq_some]

/-- `(List) x` -/
def castDocument : Value :=
  .object [("kind", .string "cast"),
    ("type", .object [("named", .object [("name", .string "List"), ("args", .array [])])]),
    ("expr", .object [("kind", .string "identifier"), ("name", .string "x")])]

/- Arguments stand in a kind of their own, so an identifier does not look at them. -/
def castDocumentTurned : Value :=
  .object [
    ("expr", .object [("args", .null), ("kind", .string "identifier"), ("name", .string "x")]),
    ("type", .object [("named", .object [("args", .array []), ("name", .string "List")])]),
    ("kind", .string "cast")]

theorem body_of_changes_cast :
    ReflTransGen (Change .node) castDocument castDocumentTurned ∧
      body castDocument = .ok (.plain (.cast (.named "List" []) (.read "x"))) ∧
      body castDocumentTurned = .ok (.plain (.cast (.named "List" []) (.read "x"))) := by
  have changes : ReflTransGen (Change .node) castDocument castDocumentTurned := by
    refine .tail (.tail (.single (.member [_] [_] (.member [] [] (.reorder (.swap _ _ _)))))
      (.member [_, _] [] ?_)) (.reorder (List.reverse_perm _).symm)
    have foreign (t : Tag)
        (known : kindOf? [("kind", .string "identifier"), ("name", .string "x")] = some t) :
        "args" ∉ (fieldsOf t).map Prod.fst := by
      obtain rfl : Tag.identifier = t := Option.some.inj known
      decide
    exact Change.add .null rfl foreign
  have read : body castDocument = .ok (.plain (.cast (.named "List" []) (.read "x"))) := by rfl
  exact ⟨changes, read, (body_of_changes changes _).mp read⟩

end Read

end LocalScope
