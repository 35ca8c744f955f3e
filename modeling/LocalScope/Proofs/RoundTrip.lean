import LocalScope.Proofs.Snippets
import LocalScope.Proofs.Spelling
import LocalScope.Proofs.Subterms

/-! A body that is written and read again. The reader takes the name `variable` out of every object
before it looks at the kind, so the two kinds that have a field of that name never come back;
everything else does. -/
namespace LocalScope

open Json (Value)

namespace Kind

variable {α β : Type}

/-- The kinds with a variable of their own. -/
def bindsVariable : Kind α → Bool
  | .forEach .. | .catchClause .. => true
  | _ => false

/-- Whether no number that is not finite stands here. -/
def isFinite : Kind α → Bool
  | .literal c => c.isFinite
  | _ => true

@[simp] theorem bindsVariable_map (f : α → β) (k : Kind α) :
    (k.map f).bindsVariable = k.bindsVariable := by
  cases k <;> rfl

@[simp] theorem tag_map (f : α → β) (k : Kind α) : (k.map f).tag = k.tag := by
  cases k <;> rfl

end Kind

namespace Read

theorem parts_eq (members : List (String × Value)) :
    parts members = members.map fun m => (m.1, part m.2) := by
  induction members with
  | nil => rfl
  | cons m rest ih => simp [parts, part, ih]

@[simp] theorem part_value (v : Value) : (part v).value = v := rfl

@[simp] theorem part_node (v : Value) : (part v).node = body v := rfl

@[simp] theorem part_nodes (vs : List Value) : (part (.array vs)).nodes = bodies vs := rfl

/-- The names that are taken before the fields of a kind are. -/
def isReserved (name : String) : Bool := (NodeName.ofName? name).isSome || name = "kind"

theorem isReserved_eq_false {name : String} :
    isReserved name = false ↔ NodeName.ofName? name = none ∧ name ≠ "kind" := by
  simp [isReserved]

namespace Header

theorem take_other (h : Header) {m : String × Part} (free : NodeName.ofName? m.1 = none) :
    h.take m = .ok (h.keep m.1 m.2) := by
  rw [take, free]

theorem take_others (members : List (String × Part)) (h : Header)
    (free : ∀ m ∈ members, NodeName.ofName? m.1 = none) :
    members.foldlM take h = .ok { h with others := members.reverse ++ h.others } := by
  induction members generalizing h with
  | nil => rfl
  | cons m rest ih =>
    have later := ih (h.keep m.1 m.2) fun m' listed => free m' (List.mem_cons_of_mem _ listed)
    rw [List.foldlM_cons, take_other h (free m List.mem_cons_self)]
    exact later.trans (by simp [keep])

theorem take_refused (members : List (String × Part)) (h : Header) {m : String × Part}
    (listed : m ∈ members) {name : NodeName} (own : NodeName.ofName? m.1 = some name)
    (bad : (id? (.of m.2.value)).toOption = none) :
    (members.foldlM take h).toOption = none := by
  induction members generalizing h with
  | nil => cases listed
  | cons first rest ih =>
    rw [List.foldlM_cons, Except.toOption_bind]
    rcases List.mem_cons.mp listed with rfl | later
    · simp [take, own, bad]
    · simp [ih _ later]

end Header

theorem takeKind_other {m : String × Part} (free : m.1 ≠ "kind") (found : Option Tag)
    (rest : List (String × Part)) :
    takeKind found (m :: rest) =
      takeKind found rest >>= fun taken => .ok (taken.1, m :: taken.2) := by
  cases found <;> rw [takeKind, if_neg free] <;> rfl

theorem takeKind_others (members : List (String × Part)) (t : Tag)
    (free : ∀ m ∈ members, m.1 ≠ "kind") : takeKind (some t) members = .ok (t, members) := by
  induction members with
  | nil => rfl
  | cons m rest ih =>
    have later := ih fun m' listed => free m' (List.mem_cons_of_mem _ listed)
    rw [takeKind_other (free m List.mem_cons_self), later]
    rfl

end Read

namespace Write

theorem body_node (note : Annotation) (k : Kind Body) :
    body (.node note k) =
      .object (("kind", word k.tag) :: fields (k.map body) ++ ids note) := by
  rw [body, Term.fold_node, Kind.tag_map]

theorem mem_optional {name : String} {v : Option Value} {m : String × Value} :
    m ∈ optional name v ↔ m.1 = name ∧ v = some m.2 := by
  cases v <;> simp [optional, Prod.ext_iff, eq_comm]

theorem mem_flag {name : String} {b : Bool} {m : String × Value} :
    m ∈ flag name b ↔ m.1 = name ∧ b = true ∧ m.2 = .bool true := by
  cases b <;> simp [flag, Prod.ext_iff]

theorem fields_free (k : Kind Value) (plain : k.bindsVariable = false) :
    ∀ m ∈ fields k, Read.isReserved m.1 = false := by
  rintro ⟨name, v⟩
  cases k <;>
    simp +contextual [fields, Kind.bindsVariable, mem_optional, mem_flag, or_imp, Read.isReserved,
      Read.NodeName.ofName?] at plain ⊢

@[simp] theorem valuesOf_optional (name other : String) (v : Option Value) :
    Fields.valuesOf name (optional other v) = if other = name then v.toList else [] := by
  cases v <;> simp [optional]

@[simp] theorem valuesOf_flag (name other : String) (b : Bool) :
    Fields.valuesOf name (flag other b) = if b = true ∧ other = name then [.bool true] else [] := by
  cases b <;> simp [flag]

section

variable {α : Type} (name : String) (members : List (String × Value))

theorem value?_required (read : Read.Part → Reading α) :
    (Fields.required name read).value? (Read.parts members) =
      Fields.only none (fun v => (read (Read.part v)).toOption) (Fields.valuesOf name members) := by
  rw [Fields.value?_required, Read.parts_eq, Fields.valuesOf_map, Fields.only_map]

theorem value?_withDefault (default : α) (read : Read.Part → Reading α) :
    (Fields.withDefault name default read).value? (Read.parts members) =
      Fields.only (some default) (fun v => (read (Read.part v)).toOption)
        (Fields.valuesOf name members) := by
  rw [Fields.value?_withDefault, Read.parts_eq, Fields.valuesOf_map, Fields.only_map]

def child? : Value → Option (Option Body)
  | .null => some none
  | v => (Read.body v).toOption.map some

theorem value?_node? :
    (Read.node? name).value? (Read.parts members) =
      Fields.only (some none) child? (Fields.valuesOf name members) := by
  rw [Read.node?, value?_withDefault]
  congr 1
  funext v
  cases v <;> simp [child?]

end

theorem read_flag (b : Bool) :
    Fields.only (some false) (fun v => (Read.bool v).toOption) (if b then [Value.bool true] else []) =
      some b := by
  cases b <;> rfl

/- In the rest it is known of every child whether it comes back. -/
section

variable {good : Body → Bool}

theorem read_bodies (bs : List Body)
    (known : ∀ c ∈ bs, (Read.body (body c)).toOption = .guard good c) :
    (Read.bodies (bs.map body)).toOption = .guard (List.all · good) bs := by
  induction bs with
  | nil => rfl
  | cons b rest ih =>
    have here := known b List.mem_cons_self
    have later := ih fun c listed => known c (List.mem_cons_of_mem _ listed)
    simp only [List.map_cons, Read.bodies, Except.toOption_bind, here, later, Option.guard,
      List.all_cons]
    by_cases first : good b = true
    · by_cases others : rest.all good = true
      · simp [first, others, pure, Except.pure]
      · simp [first, others]
    · simp [first]

theorem read_child? (o : Option Body)
    (known : ∀ c ∈ o.toList, (Read.body (body c)).toOption = .guard good c) :
    Fields.only (some none) child? (o.map body).toList = .guard (List.all ·.toList good) o := by
  cases o with
  | none => rfl
  | some c =>
    have here := known c (List.mem_singleton_self c)
    have present : child? (body c) = (Read.body (body c)).toOption.map some := by
      cases c with
      | node note k => simp [body_node, child?]
    simp [present, here, Option.guard]

theorem guard_map {α β : Type} (p : α → Bool) (x : α) (f : α → β) :
    (Option.guard p x).map f = if p x then some (f x) else none := by
  simp [Option.guard]

theorem ite_bind {α β : Type} (p : Prop) [Decidable p] (x : Option α) (f : α → Option β) :
    (if p then x else none).bind f = if p then x.bind f else none := by
  split <;> rfl

theorem read_fields (k : Kind Body)
    (known : ∀ c ∈ k.children, (Read.body (body c)).toOption = .guard good c) :
    (Read.kind k.tag).value? (Read.parts (fields (k.map body))) =
      if k.isFinite && k.children.all good then some k else none := by
  have many (bs : List Body) (all : ∀ c ∈ bs, c ∈ k.children) :=
    read_bodies bs fun c listed => known c (all c listed)
  have option (o : Option Body) (all : ∀ c ∈ o.toList, c ∈ k.children) :=
    read_child? o fun c listed => known c (all c listed)
  cases k <;>
    simp only [Kind.children, Kind.slots, Slot.children, List.flatMap_cons, List.flatMap_nil,
      List.append_nil, List.singleton_append, List.mem_cons, List.mem_append, List.not_mem_nil,
      or_false] at known many option ⊢ <;>
    simp +contextual [Kind.tag, Kind.map, Kind.isFinite, fields, Read.kind, Read.node, Read.nodes,
      Read.nodesOrNone, Read.text, Read.string, Read.tyField, Read.wordField, value?_required,
      value?_withDefault, value?_node?, known, many, option, read_ty, read_word, read_constant,
      read_flag, guard_map, ite_bind, ite_and]

end

theorem take_id {h : Read.Header} {name : Read.NodeName} (first : h.given name = false)
    (id : UInt32) :
    h.take (name.spelling, Read.part (.nat id.toNat)) = .ok (h.setId name (some id)) := by
  have own : Read.NodeName.ofName? name.spelling = some name := by cases name <;> rfl
  have number : Read.id? (.of (Read.part (.nat id.toNat)).value) = .ok (some id) := read_id id
  simp only [Read.Header.take, own, Read.Header.refuseAgain, first, number, Bool.false_eq_true,
    if_false]
  rfl

theorem take_optional {h : Read.Header} (name : Read.NodeName) (first : h.given name = false)
    (id : Option UInt32) :
    (Read.parts (optional name.spelling (id.map fun n => .nat n.toNat))).foldlM Read.Header.take h =
      .ok (id.elim h fun n => h.setId name (some n)) := by
  cases id with
  | none => rfl
  | some n =>
    rw [Read.parts_eq]
    simp only [optional, Option.map_some, List.map_cons, List.map_nil, List.foldlM_cons,
      take_id first]
    rfl

def header (note : Annotation) (others : List (String × Read.Part)) : Read.Header where
  variableId := note.variableId.map (some ·.index)
  memberId := note.memberId.map (some ·.index)
  others := others

theorem note_header (note : Annotation) (others : List (String × Read.Part)) :
    (header note others).note = note := by
  obtain ⟨v, m⟩ := note
  cases v <;> cases m <;> rfl

@[simp] theorem others_header (note : Annotation) (others : List (String × Read.Part)) :
    (header note others).others = others := rfl

theorem parts_append (first second : List (String × Value)) :
    Read.parts (first ++ second) = Read.parts first ++ Read.parts second := by
  simp [Read.parts_eq]

theorem take_ids (note : Annotation) (others : List (String × Read.Part)) :
    (Read.parts (ids note)).foldlM Read.Header.take { others } = .ok (header note others) := by
  obtain ⟨v, m⟩ := note
  have variableId :
      (Read.parts (optional "variable" (v.map fun v => .nat v.index.toNat))).foldlM
        Read.Header.take { others } = .ok (header ⟨v, none⟩ others) := by
    have taken := take_optional (h := { others }) .variableId rfl (v.map (·.index))
    rw [Option.map_map] at taken
    exact taken.trans (by cases v <;> rfl)
  have memberId :
      (Read.parts (optional "member_reference" (m.map fun m => .nat m.index.toNat))).foldlM
        Read.Header.take (header ⟨v, none⟩ others) = .ok (header ⟨v, m⟩ others) := by
    have taken := take_optional (h := header ⟨v, none⟩ others) .memberId rfl (m.map (·.index))
    rw [Option.map_map] at taken
    exact taken.trans (by cases m <;> rfl)
  rw [ids, parts_append, List.foldlM_append, variableId]
  exact memberId

theorem read_tag (t : Tag) : Read.tag (word t) = .ok t := by
  rw [word, Read.tag, Vocabulary.ofSpelling?_spelling]

theorem parts_free {members : List (String × Value)}
    (free : ∀ m ∈ members, Read.isReserved m.1 = false) :
    ∀ m ∈ Read.parts members, Read.NodeName.ofName? m.1 = none ∧ m.1 ≠ "kind" := by
  intro m listed
  rw [Read.parts_eq, List.mem_map] at listed
  obtain ⟨written, among, rfl⟩ := listed
  exact Read.isReserved_eq_false.mp (free written among)

/- Everything but the two numbers is set aside, in reverse order. -/
theorem take_node (note : Annotation) (t : Tag) {members : List (String × Value)}
    (free : ∀ m ∈ members, Read.isReserved m.1 = false) :
    (Read.parts (("kind", word t) :: members ++ ids note)).foldlM Read.Header.take {} =
      .ok (header note (("kind", Read.part (word t)) :: Read.parts members).reverse) := by
  have kept : ∀ m ∈ ("kind", Read.part (word t)) :: Read.parts members,
      Read.NodeName.ofName? m.1 = none :=
    List.forall_mem_cons.mpr ⟨rfl, fun m listed => (parts_free free m listed).1⟩
  have front : (Read.parts (("kind", word t) :: members)).foldlM Read.Header.take {} =
      .ok { others := (("kind", Read.part (word t)) :: Read.parts members).reverse } := by
    have taken := Read.Header.take_others _ {} kept
    rw [List.append_nil] at taken
    exact taken
  rw [parts_append, List.foldlM_append, front]
  exact take_ids note _

theorem read_node (note : Annotation) (k : Kind Body) (plain : k.bindsVariable = false) :
    (Read.body (body (.node note k))).toOption =
      ((Read.kind k.tag).value? (Read.parts (fields (k.map body)))).map (.node note) := by
  have free := fields_free (k.map body) (by simpa using plain)
  have tagged : Read.takeKind none
      (("kind", Read.part (word k.tag)) :: Read.parts (fields (k.map body))) =
        .ok (k.tag, Read.parts (fields (k.map body))) := by
    simp only [Read.takeKind, Read.part_value, read_tag, if_true]
    exact Read.takeKind_others _ k.tag fun m listed => (parts_free free m listed).2
  rw [body_node, Read.body, take_node note k.tag free, Except.toOption_bind]
  simp only [Except.toOption_ok, Option.bind_some, Read.Header.body, note_header, others_header,
    List.reverse_reverse, tagged]
  simp

theorem read_binder (note : Annotation) (k : Kind Body) (binder : k.bindsVariable = true) :
    (Read.body (body (.node note k))).toOption = none := by
  obtain ⟨name, listed⟩ : ∃ name, ("variable", .string name) ∈ fields (k.map body) := by
    cases k <;> simp [Kind.bindsVariable] at binder <;> simp [Kind.map, fields]
  have among : ("variable", Read.part (.string name)) ∈
      Read.parts (("kind", word k.tag) :: fields (k.map body) ++ ids note) := by
    rw [Read.parts_eq]
    exact List.mem_map_of_mem (List.mem_append_left _ (List.mem_cons_of_mem _ listed))
  rw [body_node, Read.body, Except.toOption_bind, Read.Header.take_refused _ _ among rfl rfl]
  rfl

def comesBack (b : Body) : Bool :=
  b.subterms.all fun n => n.kind.isFinite && !n.kind.bindsVariable

theorem comesBack_node (note : Annotation) (k : Kind Body) :
    comesBack (.node note k) =
      (k.isFinite && !k.bindsVariable && k.children.all comesBack) := by
  simp only [comesBack, Term.subterms_node, List.all_cons, List.all_flatMap]
  rfl

theorem read_body (b : Body) : (Read.body (body b)).toOption = .guard comesBack b := by
  induction b using Term.inductChildren with
  | step note k ih =>
    rw [Option.guard, comesBack_node]
    cases binder : k.bindsVariable with
    | true => simp [read_binder note k binder]
    | false =>
      rw [read_node note k binder, read_fields k ih]
      by_cases kept : (k.isFinite && k.children.all comesBack) = true <;> simp_all

end Write

namespace Read

structure Part.All (good : Body → Prop) (p : Part) : Prop where
  node : ∀ b, p.node = .ok b → good b
  nodes : ∀ bs, p.nodes = .ok bs → ∀ b ∈ bs, good b

section

variable {good : Body → Prop} {members : List (String × Part)} {name : String}
  (all : ∀ m ∈ members, m.2.All good)

include all

theorem of_field {α : Type} {absent : Nat → Except Located α} {read : Part → Reading α} {x : α}
    (found : (Fields.field name read absent).value? members = some x) :
    absent members.length = .ok x ∨ ∃ p, p.All good ∧ read p = .ok x := by
  rw [Fields.value?_field] at found
  obtain missing | ⟨p, listed, given⟩ := Fields.only_eq_some found
  · exact .inl (Except.toOption_eq_some.mp missing)
  · exact .inr ⟨p, all _ (Fields.mem_valuesOf listed), Except.toOption_eq_some.mp given⟩

theorem node_all {b : Body} (found : (node name).value? members = some b) : good b := by
  unfold node Fields.required at found
  obtain missing | ⟨p, known, given⟩ := of_field all found
  · cases missing
  · exact known.node b given

theorem nodes_all {bs : List Body} (found : (nodes name).value? members = some bs) :
    ∀ b ∈ bs, good b := by
  unfold nodes Fields.required at found
  obtain missing | ⟨p, known, given⟩ := of_field all found
  · cases missing
  · exact known.nodes bs given

theorem nodesOrNone_all {bs : List Body} (found : (nodesOrNone name).value? members = some bs) :
    ∀ b ∈ bs, good b := by
  unfold nodesOrNone Fields.withDefault at found
  obtain missing | ⟨p, known, given⟩ := of_field all found
  · cases missing
    exact List.forall_mem_nil _
  · exact known.nodes bs given

theorem node?_all {b : Body} (found : (node? name).value? members = some (some b)) : good b := by
  unfold node? Fields.withDefault at found
  obtain missing | ⟨p, known, given⟩ := of_field all found
  · cases missing
  · split at given
    · cases given
    · obtain ⟨b', present, same⟩ := Except.map_eq_ok given
      cases same
      exact known.node b present

/- Without a member `variable` neither of the two kinds that need one can be read. -/
theorem kind_all (free : ∀ m ∈ members, m.1 ≠ "variable") {t : Tag} {k : Kind Body}
    (found : (kind t).value? members = some k) :
    k.bindsVariable = false ∧ ∀ c ∈ k.children, good c := by
  have nameless (s : String) : (text "variable").value? members ≠ some s := by
    intro read
    rw [text, Fields.value?_required] at read
    obtain missing | ⟨p, listed, -⟩ := Fields.only_eq_some read
    · cases missing
    · exact free _ (Fields.mem_valuesOf listed) rfl
  have one (name b) : (node name).value? members = some b → good b := node_all all
  have option (name b) : (node? name).value? members = some (some b) → good b := node?_all all
  have many (name bs) : (nodes name).value? members = some bs → ∀ b ∈ bs, good b := nodes_all all
  have several (name bs) : (nodesOrNone name).value? members = some bs → ∀ b ∈ bs, good b :=
    nodesOrNone_all all
  cases t <;>
    simp [kind, Option.bind_eq_some_iff, Option.map_eq_some_iff] at found <;>
    grind [Kind.bindsVariable, Kind.children, Kind.slots, Slot.children]

end

theorem mem_takeKind {t : Tag} {found : Option Tag} {members others : List (String × Part)}
    (taken : takeKind found members = .ok (t, others)) : ∀ m ∈ others, m ∈ members := by
  induction members generalizing found others with
  | nil =>
    cases found with
    | none => cases taken
    | some t =>
      cases taken
      exact fun _ listed => listed
  | cons m rest ih =>
    by_cases named : m.1 = "kind"
    · cases found with
      | none =>
        rw [takeKind, if_pos named] at taken
        obtain ⟨t', -, later⟩ := Except.bind_eq_ok taken
        exact fun m' listed => List.mem_cons_of_mem _ (ih later m' listed)
      | some t' =>
        rw [takeKind, if_pos named] at taken
        cases taken
    · rw [takeKind_other named] at taken
      obtain ⟨⟨t', others'⟩, later, same⟩ := Except.bind_eq_ok taken
      cases same
      intro m' listed
      rcases List.mem_cons.mp listed with rfl | among
      · exact List.mem_cons_self
      · exact List.mem_cons_of_mem _ (ih later m' among)

theorem Header.mem_take {h h' : Header} {m : String × Part} (taken : h.take m = .ok h') :
    ∀ m' ∈ h'.others, m' ∈ h.others ∨ m' = m ∧ NodeName.ofName? m.1 = none := by
  rw [take] at taken
  split at taken
  · rename_i name own
    obtain ⟨-, -, rest⟩ := Except.bind_eq_ok taken
    obtain ⟨id, -, same⟩ := Except.bind_eq_ok rest
    cases same
    intro m' listed
    cases name <;> exact .inl listed
  · rename_i free
    cases taken
    intro m' listed
    rcases List.mem_cons.mp listed with rfl | older
    · exact .inr ⟨rfl, free⟩
    · exact .inl older

theorem Header.mem_others {members : List (String × Part)} {h h' : Header}
    (taken : members.foldlM take h = .ok h') :
    ∀ m ∈ h'.others, m ∈ h.others ∨ m ∈ members ∧ NodeName.ofName? m.1 = none := by
  induction members generalizing h with
  | nil =>
    cases taken
    exact fun _ listed => .inl listed
  | cons first rest ih =>
    rw [List.foldlM_cons] at taken
    obtain ⟨middle, one, later⟩ := Except.bind_eq_ok taken
    intro m listed
    rcases ih later m listed with earlier | ⟨among, free⟩
    · rcases mem_take one m earlier with older | ⟨rfl, free⟩
      · exact .inl older
      · exact .inr ⟨List.mem_cons_self, free⟩
    · exact .inr ⟨List.mem_cons_of_mem _ among, free⟩

def Plain (b : Body) : Prop := ∀ n ∈ b.subterms, n.kind.bindsVariable = false

theorem plain_node {note : Annotation} {k : Kind Body} :
    Plain (.node note k) ↔ k.bindsVariable = false ∧ ∀ c ∈ k.children, Plain c := by
  simp only [Plain, Term.subterms_node, List.forall_mem_cons, List.forall_mem_flatMap]
  rfl

theorem Header.body_plain {members : List (String × Part)}
    (all : ∀ m ∈ members, m.2.All Plain) {h : Header} (taken : members.foldlM take {} = .ok h)
    {b : Body} (read : h.body = .ok b) : Plain b := by
  obtain ⟨⟨t, fields⟩, split, rest⟩ := Except.bind_eq_ok read
  obtain ⟨k, found, same⟩ := Except.bind_eq_ok rest
  cases same
  have known (m) (listed : m ∈ fields) : m ∈ members ∧ NodeName.ofName? m.1 = none := by
    have other : m ∈ h.others := List.mem_reverse.mp (mem_takeKind split m listed)
    simpa using mem_others taken m other
  apply plain_node.mpr
  apply kind_all fun m listed => all m (known m listed).1
  · intro m listed same
    have free := (known m listed).2
    rw [same] at free
    cases free
  · rw [← Fields.run_toOption, found]
    rfl

mutual

theorem body_plain : ∀ (v : Value) (b : Body), body v = .ok b → Plain b
  | .object members, b, read => by
    have all := parts_plain members
    rw [body] at read
    obtain ⟨h, taken, rest⟩ := Except.bind_eq_ok read
    exact Header.body_plain all taken rest
  | .null, _, read | .bool _, _, read | .number _, _, read | .string _, _, read
  | .array _, _, read => by cases read

theorem parts_plain : ∀ (members : List (String × Value)), ∀ m ∈ parts members, m.2.All Plain
  | [], _, listed => by cases listed
  | (name, v) :: rest, m, listed => by
    rcases List.mem_cons.mp listed with rfl | later
    · exact ⟨body_plain v, bodyList_plain v⟩
    · exact parts_plain rest m later

theorem bodyList_plain : ∀ (v : Value) (bs : List Body), bodyList v = .ok bs → ∀ b ∈ bs, Plain b
  | .array elements, bs, read => bodies_plain elements bs read
  | .null, _, read | .bool _, _, read | .number _, _, read | .string _, _, read
  | .object _, _, read => by cases read

theorem bodies_plain : ∀ (vs : List Value) (bs : List Body), bodies vs = .ok bs → ∀ b ∈ bs, Plain b
  | [], bs, read => by
    cases read
    simp
  | v :: vs, bs, read => by
    rw [bodies] at read
    obtain ⟨b, first, rest⟩ := Except.bind_eq_ok read
    obtain ⟨later, others, same⟩ := Except.bind_eq_ok rest
    cases same
    exact List.forall_mem_cons.mpr ⟨body_plain v b first, bodies_plain vs later others⟩

end

end Read

/-- A body whose numbers are finite comes back from its document exactly if no node in it has a
variable of its own, and no document at all is read as a body with such a node. -/
theorem Body.comes_back_iff_readable (b : Body)
    (finite : ∀ n ∈ b.subterms, n.kind.isFinite = true) :
    ((∀ n ∈ b.subterms, n.kind.bindsVariable = false) → Read.body (Write.body b) = .ok b) ∧
    ((∃ n ∈ b.subterms, n.kind.bindsVariable = true) →
      ∃ fault, Read.body (Write.body b) = .error fault) ∧
    (∀ v c, Read.body v = .ok c → ∀ n ∈ c.subterms, n.kind.bindsVariable = false) ∧
    ((∃ v, Read.body v = .ok b) ↔ Read.body (Write.body b) = .ok b) := by
  have back (plain : ∀ n ∈ b.subterms, n.kind.bindsVariable = false) :
      Read.body (Write.body b) = .ok b := by
    have all : Write.comesBack b = true := by
      simpa [Write.comesBack] using fun n below => ⟨finite n below, plain n below⟩
    apply Except.toOption_eq_some.mp
    rw [Write.read_body, Option.guard, if_pos all]
  refine ⟨back, ?_, Read.body_plain, ?_⟩
  · rintro ⟨n, below, binder⟩
    have lost : ¬ Write.comesBack b = true := by
      intro all
      have kept := List.all_eq_true.mp all n below
      simp [binder] at kept
    apply Except.toOption_eq_none.mp
    rw [Write.read_body, Option.guard, if_neg lost]
  · constructor
    · rintro ⟨v, read⟩
      exact back (Read.body_plain v b read)
    · exact fun read => ⟨_, read⟩

/-- `return 0.5;` -/
def Body.returnHalf : Body :=
  .plain (.ret (some (.plain (.literal (.float ⟨0x3fe0000000000000⟩)))))

theorem Body.returnHalf_comes_back :
    Read.body (Write.body (braces [returnHalf])) = .ok (braces [returnHalf]) ∧
    ∃ fault, Read.body (Write.body (forEachInt "x" "xs" [returnHalf])) = .error fault := by
  constructor
  · exact (comes_back_iff_readable (braces [returnHalf]) (by decide)).1 (by decide)
  · exact (comes_back_iff_readable (forEachInt "x" "xs" [returnHalf]) (by decide)).2.1
      ⟨forEachInt "x" "xs" [returnHalf], Term.self_mem_subterms _, rfl⟩

end LocalScope
