import LocalScope.Proofs.Running

namespace LocalScope

namespace Kind

variable {α β : Type}

/-- Where a declaration has a scope: the statements of a block and the initializers of a `for`. -/
def listing : Kind α → List α
  | .block ss => ss
  | .forLoop init _ _ _ => init
  | _ => []

/-- What else of the node is in the scope of all that it lists. -/
def onward : Kind α → List α
  | .forLoop _ cond update body => cond.toList ++ update ++ [body]
  | _ => []

theorem mem_children_of_listing {k : Kind α} {c : α} (listed : c ∈ k.listing ++ k.onward) :
    c ∈ k.children := by
  cases k <;> simp_all [listing, onward, children, slots, Slot.children]

end Kind

namespace Tree

def binds (name : String) (b : Tree) : Bool :=
  match b.kind with
  | .binding n _ => n == name
  | _ => false

def declares (name : String) (d : Tree) : Bool :=
  match d.kind with
  | .declaration _ bindings _ => bindings.any (binds name)
  | _ => false

/-- A declaration that a node lists is in scope in all that comes later in the list; in a `for`
header also in the condition, the updates and the body. -/
def Scopes (n d : Tree) (x : NodeId) : Prop :=
  ∃ before after, n.kind.listing = before ++ d :: after ∧
    ∃ s ∈ after ++ n.kind.onward, x ∈ Tree.ids s

/-- Somewhere in the tree the declaration has the node in its scope. -/
def InScope (t d : Tree) (x : NodeId) : Prop := ∃ n ∈ t.subterms, Scopes n d x

theorem InScope.mem_subterms {t d : Tree} {x : NodeId} (inScope : InScope t d x) :
    d ∈ t.subterms := by
  obtain ⟨n, member, before, after, split, -⟩ := inScope
  have child : d ∈ n.children := by
    apply Kind.mem_children_of_listing
    simp [split]
  exact Term.subterms_trans (Term.child_mem_subterms child) member

variable {ps : List Patch} {t n : Tree} {x : NodeId}

theorem mem_subterms_withNote {m : Tree} {note : Annotation} (inside : m ∈ (t.withNote note).subterms) :
    m = t.withNote note ∨ m ∈ t.subterms := by
  cases t with
  | node l k =>
    rcases Term.mem_subterms_node.mp inside with rfl | ⟨c, child, below⟩
    · exact .inl rfl
    · exact .inr (Term.mem_subterms_of_child (t := .node l k) child below)

theorem mem_rebuildAll {ss : List Tree} {d : Tree} :
    d ∈ rebuildAll ps ss ↔ ∃ s ∈ ss, d ∈ insertions ps s.id ∨ d = rebuild ps s := by
  simp [rebuildAll]

theorem mem_subterms_declares {p : Patch} {note inner : Annotation} {init : Option Tree} {m : Tree}
    (inside : m ∈ (p.declares note inner init).subterms) :
    (m.isDeclarative = true ∧ (m.isDeclaration = true → m = p.declares note inner init)) ∨
      ∃ v ∈ init, m ∈ v.subterms := by
  simp only [Patch.declares, Term.subterms_node, Kind.children, Kind.slots, Slot.children,
    List.flatMap_cons, List.flatMap_nil, List.append_nil, List.mem_cons, List.mem_flatMap,
    Option.mem_toList] at inside
  rcases inside with rfl | rfl | ⟨v, known, below⟩
  · exact .inl ⟨rfl, fun _ => rfl⟩
  · exact .inl ⟨rfl, fun declaration => by cases declaration⟩
  · exact .inr ⟨v, known, below⟩

/-- Where a node of the rebuilt tree comes from: it is a rebuilt node or part of a declaration that a
patch has made in the tree. -/
def Comes (ps : List Patch) (t m : Tree) : Prop :=
  (∃ n ∈ t.subterms, foldedBy? ps n = none ∧ ∃ note, m = (rebuild ps n).withNote note) ∨
    (m.isDeclarative = true ∧ ∃ p ∈ ps, p.edit.site.node ∈ t.ids ∧
      (m.isDeclaration = true → ∃ note inner init, m = p.declares note inner init))

namespace Comes

variable {m : Tree}

theorem self (kept : foldedBy? ps t = none) : Comes ps t (rebuild ps t) :=
  .inl ⟨t, Term.self_mem_subterms _, kept, _, (withNote_self _).symm⟩

theorem above {c : Tree} (comes : Comes ps c m) (below : c ∈ t.subterms) : Comes ps t m :=
  comes.imp (fun ⟨n, within, rest⟩ => ⟨n, Term.subterms_trans within below, rest⟩)
    (fun ⟨part, p, known, site, rest⟩ => ⟨part, p, known, ids_subset below site, rest⟩)

theorem withNote (comes : Comes ps t m) (note : Annotation) : Comes ps t (m.withNote note) := by
  rcases comes with ⟨n, within, kept, old, rfl⟩ | ⟨part, p, known, site, rest⟩
  · exact .inl ⟨n, within, kept, note, rfl⟩
  · refine .inr ⟨part, p, known, site, fun declaration => ?_⟩
    obtain ⟨old, inner, init, rfl⟩ := rest declaration
    exact ⟨note, inner, init, rfl⟩

theorem of_declares {p : Patch} {note inner : Annotation} {init : Option Tree} (known : p ∈ ps)
    (near : p.edit.site.node ∈ t.ids) (inside : m ∈ (p.declares note inner init).subterms)
    (value : ∀ v ∈ init, m ∈ v.subterms → Comes ps t m) : Comes ps t m := by
  rcases mem_subterms_declares inside with ⟨part, whole⟩ | ⟨v, mine, below⟩
  · exact .inr ⟨part, p, known, near, fun declaration => ⟨_, _, _, whole declaration⟩⟩
  · exact value v mine below

theorem of_insertions {s d : Tree} (listed : d ∈ insertions ps s.id) (old : s ∈ t.subterms)
    (inside : m ∈ d.subterms) : Comes ps t m := by
  rw [insertions, List.mem_map] at listed
  obtain ⟨p, known, rfl⟩ := listed
  obtain ⟨known, site⟩ := List.mem_filter.mp known
  have site : p.edit.site = .before s.id := by simpa using site
  have near : p.edit.site.node ∈ t.ids := by
    rw [site]
    exact ids_subset old (id_mem_ids s)
  exact of_declares known near inside fun v none => by cases none

end Comes

theorem mem_subterms_rebuild {m : Tree} (inside : m ∈ (rebuild ps t).subterms) : Comes ps t m := by
  induction t using Term.inductSmaller generalizing m with
  | step t smaller =>
    obtain ⟨l, k⟩ := t
    have child {c m : Tree} (child : c ∈ k.children) (inside : m ∈ (rebuild ps c).subterms) :
        Comes ps (.node l k) m :=
      (smaller c (Term.size_lt_of_mem_children (t := .node l k) child) inside).above
        (Term.child_mem_subterms (t := .node l k) child)
    rcases rebuild_cases ps l k with ⟨ss, rfl, made⟩ | ⟨-, kept, made⟩ |
      ⟨p, r, op, x, v, found, shape, folded, made⟩
    · by_cases whole : m = rebuild ps (.node l (.block ss))
      · exact whole ▸ .self rfl
      · rw [made] at inside whole
        obtain ⟨c, listed, below⟩ := (Term.mem_subterms_node.mp inside).resolve_left whole
        rw [Kind.children_block, mem_rebuildAll] at listed
        obtain ⟨s, old, listed⟩ := listed
        have old : s ∈ (Kind.block ss).children := by simpa using old
        rcases listed with new | rfl
        · exact .of_insertions new (Term.child_mem_subterms (t := .node l (.block ss)) old) below
        · exact child old below
    · by_cases whole : m = rebuild ps (.node l k)
      · exact whole ▸ .self kept
      · rw [made] at inside whole
        obtain ⟨c, listed, below⟩ := (Term.mem_subterms_node.mp inside).resolve_left whole
        rw [Kind.children_map, List.mem_map] at listed
        obtain ⟨s, old, rfl⟩ := listed
        exact child old below
    · obtain ⟨known, site⟩ := folding?_mem folded
      have near : p.edit.site.node ∈ ids (.node l k) := by
        rw [site]
        exact ids_subset (Term.assignment?_mem_subterms found) (id_mem_ids r)
      -- The value may be two levels down, so the induction is on size and not on children.
      have value {m : Tree} (inside : m ∈ (rebuild ps v).subterms) : Comes ps (.node l k) m :=
        (smaller v (size_value_lt found shape) inside).above (value_mem_subterms found shape)
      rw [made] at inside
      refine .of_declares known near inside fun w mine below => ?_
      obtain rfl : _ = w := by simpa using mine
      rcases mem_subterms_withNote below with rfl | below
      · exact (value (Term.self_mem_subterms _)).withNote _
      · exact value below

theorem assignment_apart {r y v : Tree} {op : AssignOp} (distinct : r.ids.Nodup)
    (shape : r.kind = .assignment op y v) (left : x ∈ y.ids) : x ∉ v.ids := by
  cases r with
  | node l k =>
    rw [Term.kind] at shape
    subst shape
    rw [ids_node] at distinct
    simp only [Kind.children, Kind.slots, Slot.children, List.flatMap_cons, List.flatMap_nil,
      List.append_nil, List.singleton_append, List.nodup_cons, List.nodup_append] at distinct
    exact fun right => distinct.2.2.2 x left x right rfl

theorem mem_ids_rebuild_below (distinct : t.ids.Nodup) (old : x ∉ added ps) (member : n ∈ t.subterms)
    (below : x ∈ n.ids) (left : x ∈ (rebuild ps t).ids) : x ∈ (rebuild ps n).ids := by
  induction t using Term.inductSmaller with
  | step t smaller =>
    obtain ⟨l, k⟩ := t
    by_cases whole : n = .node l k
    · exact whole ▸ left
    have inner {c : Tree} (inside : c ∈ (Term.node l k).subterms) : c.ids.Nodup :=
      distinct.sublist (ids_sublist inside)
    -- The number is below one child only, so what is left of it is left of that child.
    have child {c s : Tree} (first : c ∈ k.children) (under : n ∈ c.subterms) (second : s ∈ k.children)
        (left : x ∈ (rebuild ps s).ids) : x ∈ (rebuild ps n).ids := by
      have known := (mem_ids_rebuild left).resolve_right old
      obtain rfl : s = c := child_of_common distinct first under second below known
      exact smaller s (Term.size_lt_of_mem_children (t := .node l k) first)
        (inner (Term.child_mem_subterms first)) under left
    have notTop (c : Tree) (first : c ∈ k.children) (under : n ∈ c.subterms) : x ≠ l.id := by
      rintro rfl
      exact id_not_mem_child distinct first (ids_subset under below)
    rcases rebuild_cases ps l k with ⟨ss, rfl, made⟩ | ⟨-, -, made⟩ |
      ⟨p, r, op, y, v, found, shape, folded, made⟩
    · obtain ⟨c, first, under⟩ := (Term.mem_subterms_node.mp member).resolve_left whole
      rw [made, ids_block, List.mem_cons] at left
      have left := left.resolve_left (notTop c first under)
      simp only [rebuildAll, List.flatMap_assoc, List.flatMap_append, List.flatMap_cons,
        List.flatMap_nil, List.append_nil, List.mem_flatMap, List.mem_append] at left
      obtain ⟨s, second, new | left⟩ := left
      · exact absurd (mem_ids_insertions (List.mem_flatMap.mpr new)) old
      · exact child first under (by simpa using second) left
    · obtain ⟨c, first, under⟩ := (Term.mem_subterms_node.mp member).resolve_left whole
      rw [made, ids_node, Kind.children_map, List.flatMap_map, List.mem_cons] at left
      obtain ⟨s, second, left⟩ := List.mem_flatMap.mp (left.resolve_left (notTop c first under))
      exact child first under second left
    · have fresh := added_of_mem (folding?_mem folded).1
      rw [made, Patch.ids_folded, List.mem_cons, List.mem_cons] at left
      have left : x ∈ (rebuild ps v).ids := by
        rcases left with rfl | rfl | left
        · exact absurd fresh.1 old
        · exact absurd fresh.2 old
        · exact left
      rcases (mem_subterms_assignment found shape).mp member with rfl | rfl | inLeft | inRight
      · exact absurd rfl whole
      · have own : Term.assignment? n = some n := by simp only [Term.assignment?, shape]
        rw [rebuild_folded ps own shape folded, Patch.ids_folded]
        exact List.mem_cons_of_mem _ (List.mem_cons_of_mem _ left)
      · have known := (mem_ids_rebuild left).resolve_right old
        have apart := assignment_apart (inner (Term.assignment?_mem_subterms found)) shape
          (ids_subset inLeft below)
        exact absurd known apart
      · exact smaller v (size_value_lt found shape) (inner (value_mem_subterms found shape)) inRight
          left

theorem rebuildAll_eq_append {ss before after : List Tree} {d : Tree}
    (split : rebuildAll ps ss = before ++ d :: after) :
    ∃ first s last, ss = first ++ s :: last ∧
      ((∃ own more, insertions ps s.id = own ++ d :: more ∧ before = rebuildAll ps first ++ own ∧
          after = more ++ rebuild ps s :: rebuildAll ps last) ∨
        (d = rebuild ps s ∧ after = rebuildAll ps last)) := by
  induction ss generalizing before with
  | nil => cases before <;> cases split
  | cons s rest ih =>
    rw [rebuildAll_cons] at split
    rcases List.append_eq_append_iff.mp split with ⟨more, rfl, tail⟩ | ⟨more, own, tail⟩
    · cases more with
      | nil =>
        rw [List.nil_append, List.cons.injEq] at tail
        exact ⟨[], s, rest, rfl, .inr ⟨tail.1.symm, tail.2.symm⟩⟩
      | cons c more =>
        rw [List.cons_append, List.cons.injEq] at tail
        obtain ⟨rfl, tail⟩ := tail
        obtain ⟨first, s', last, rfl, found⟩ := ih tail
        refine ⟨s :: first, s', last, rfl, found.imp_left ?_⟩
        rintro ⟨own, later, mine, rfl, rfl⟩
        exact ⟨own, later, mine, by simp [rebuildAll_cons], rfl⟩
    · cases more with
      | nil =>
        rw [List.nil_append, List.cons.injEq] at tail
        exact ⟨[], s, rest, rfl, .inr tail⟩
      | cons c more =>
        rw [List.cons_append, List.cons.injEq] at tail
        obtain ⟨rfl, rfl⟩ := tail
        exact ⟨[], s, rest, rfl, .inl ⟨before, more, own, rfl, rfl⟩⟩

theorem rebuildAll_split {ss before after : List Tree} {d : Tree}
    (split : rebuildAll ps ss = before ++ d :: after) :
    ∃ first s last, ss = first ++ s :: last ∧
      ((∃ p ∈ ps, p.edit.site = .before s.id ∧ d = p.inserted ∧
          ∀ c ∈ after, c ∈ insertions ps s.id ∨ c ∈ rebuild ps s :: rebuildAll ps last) ∨
        (d = rebuild ps s ∧ after = rebuildAll ps last)) := by
  obtain ⟨first, s, last, rfl, found⟩ := rebuildAll_eq_append split
  refine ⟨first, s, last, rfl, found.imp_left ?_⟩
  rintro ⟨own, more, mine, -, rfl⟩
  have listed : d ∈ insertions ps s.id := by simp [mine]
  obtain ⟨p, known, rfl⟩ := List.mem_map.mp listed
  obtain ⟨known, site⟩ := List.mem_filter.mp known
  refine ⟨p, known, by simpa using site, rfl, fun c later => ?_⟩
  rcases List.mem_append.mp later with also | further
  · exact .inl (by simp [mine, also])
  · exact .inr further

/-- A tree of rebuilt code that stands for one of these or was inserted before some statement. -/
def Laid (ps : List Patch) (rs : List Tree) (c : Tree) : Prop :=
  (∃ y, c ∈ insertions ps y) ∨ ∃ r ∈ rs, c = rebuild ps r

theorem laid_of_rebuildAll {ss : List Tree} {c : Tree} (listed : c ∈ rebuildAll ps ss) :
    Laid ps ss c := by
  obtain ⟨r, known, new | same⟩ := mem_rebuildAll.mp listed
  · exact .inl ⟨_, new⟩
  · exact .inr ⟨r, known, same⟩

theorem laid_of_map {ss : List Tree} {c : Tree} (listed : c ∈ ss.map (rebuild ps)) : Laid ps ss c := by
  obtain ⟨r, known, same⟩ := List.mem_map.mp listed
  exact .inr ⟨r, known, same.symm⟩

theorem Laid.mono {rs ss : List Tree} {c : Tree} (laid : Laid ps rs c) (among : rs ⊆ ss) : Laid ps ss c :=
  laid.imp_right fun ⟨r, known, same⟩ => ⟨r, among known, same⟩

theorem listing_of_declarative {t : Tree} (declarative : t.isDeclarative = true) :
    t.kind.listing = [] := by
  obtain ⟨l, k⟩ := t
  cases k <;> first | rfl | cases declarative

/-- What a rebuilt node lists was inserted before a statement of the node, or the node has listed it
itself. What is in scope there was inserted too or has been in scope. -/
theorem listing_rebuild {note : Annotation} {before after : List Tree} {d : Tree}
    (split : ((rebuild ps n).withNote note).kind.listing = before ++ d :: after) :
    ∃ first s last, n.kind.listing = first ++ s :: last ∧
      ((∃ p ∈ ps, p.edit.site = .before s.id ∧ n.statements = first ++ s :: last ∧ d = p.inserted ∧
          ∀ c ∈ after ++ ((rebuild ps n).withNote note).kind.onward, Laid ps (s :: last) c) ∨
        (d = rebuild ps s ∧
          ∀ c ∈ after ++ ((rebuild ps n).withNote note).kind.onward,
            Laid ps (last ++ n.kind.onward) c)) := by
  obtain ⟨l, k⟩ := n
  rcases rebuild_cases ps l k with ⟨ss, rfl, made⟩ | ⟨other, -, made⟩ | ⟨p, r, op, y, v, -, -, -, made⟩
  · rw [made] at split ⊢
    simp only [withNote, Term.kind, Kind.listing, Kind.onward, List.append_nil] at split ⊢
    obtain ⟨first, s, last, rfl, ⟨p, known, site, rfl, rest⟩ | ⟨rfl, rfl⟩⟩ := rebuildAll_split split
    · refine ⟨first, s, last, rfl, .inl ⟨p, known, site, rfl, rfl, fun c later => ?_⟩⟩
      rcases rest c later with new | listed
      · exact .inl ⟨_, new⟩
      · rcases List.mem_cons.mp listed with rfl | listed
        · exact .inr ⟨s, List.mem_cons_self, rfl⟩
        · exact (laid_of_rebuildAll listed).mono (List.subset_cons_self s last)
    · exact ⟨first, s, last, rfl, .inr ⟨rfl, fun c later => laid_of_rebuildAll later⟩⟩
  · rw [made] at split ⊢
    cases k with
    | block ss => cases other
    | forLoop init cond update body =>
      obtain ⟨first, tail, rfl, -, tailed⟩ := List.map_eq_append_iff.mp split
      obtain ⟨s, last, rfl, rfl, rfl⟩ := List.map_eq_cons_iff.mp tailed
      refine ⟨first, s, last, rfl, .inr ⟨rfl, fun c later => laid_of_map ?_⟩⟩
      simpa [withNote, Term.kind, Kind.map, Kind.onward] using later
    | _ => cases before <;> cases split
  · rw [made] at split
    cases before <;> cases split

theorem binds_rebuild (b : Tree) (name : String) : (rebuild ps b).binds name = b.binds name := by
  obtain ⟨l, k⟩ := b
  rcases rebuild_cases ps l k with ⟨ss, rfl, made⟩ | ⟨-, -, made⟩ | ⟨p, r, op, x, v, found, -, -, made⟩
  · rw [made]
    rfl
  · rw [made]
    cases k <;> rfl
  · rw [made]
    cases k <;> first | rfl | cases found

theorem declares_rebuild {d : Tree} (unfolded : foldedBy? ps d = none) (name : String) :
    (rebuild ps d).declares name = d.declares name := by
  obtain ⟨l, k⟩ := d
  rcases rebuild_cases ps l k with ⟨ss, rfl, made⟩ | ⟨-, -, made⟩ | ⟨p, r, op, x, v, found, -, folded, -⟩
  · rw [made]
    rfl
  · rw [made]
    cases k with
    | declaration ty bindings isFinal =>
      have same : binds name ∘ rebuild ps = binds name := by
        funext b
        exact binds_rebuild b name
      simp only [declares, Term.kind, Kind.map, List.any_map, same]
    | _ => rfl
  · rw [foldedBy?, found, Option.bind_some, folded] at unfolded
    cases unfolded

end Tree

namespace Edit

/-- The declaration that an edit makes will have the node in its scope. -/
inductive Covers (u : Tree) (e : Edit) (x : NodeId) : Prop
  | insertion {n s r : Tree} {before after : List Tree} (member : n ∈ u.subterms)
      (split : n.statements = before ++ s :: after) (site : e.site = .before s.id)
      (later : r ∈ s :: after) (inside : x ∈ r.ids)
  | folding {n s r c : Tree} {before after : List Tree} (member : n ∈ u.subterms)
      (entry : s ∈ n.entries) (split : n.kind.listing = before ++ s :: after)
      (found : s.assignment? = some r) (site : e.site = .inPlaceOf (Tree.id r))
      (later : c ∈ after ++ n.kind.onward) (inside : x ∈ c.ids)

end Edit

namespace Tree

/-- A patch whose declaration is in the tree. -/
def Made (ps : List Patch) (p : Patch) : Prop :=
  (p ∈ ps ∧ p.edit.isInsertion = true) ∨ ∃ x, folding? ps x = some p

theorem Made.mem {ps : List Patch} {p : Patch} (made : Made ps p) : p ∈ ps := by
  rcases made with ⟨known, -⟩ | ⟨y, found⟩
  · exact known
  · exact (folding?_mem found).1

theorem Made.chosen {ps : List Patch} {p : Patch} {x : NodeId} (made : Made ps p)
    (site : p.edit.site = .inPlaceOf x) : folding? ps x = some p := by
  rcases made with ⟨-, insertion⟩ | ⟨y, found⟩
  · rw [Edit.isInsertion, site] at insertion
    cases insertion
  · have known := (folding?_mem found).2
    rw [site, Site.inPlaceOf.injEq] at known
    exact known ▸ found

variable {t s s' n n' r : Tree}

theorem eq_of_assignment? (distinct : t.ids.Nodup) (first : n ∈ t.subterms) (second : n' ∈ t.subterms)
    (entry : s ∈ n.children) (unassigned : n.assignment? = none) (entry' : s' ∈ n'.children)
    (unassigned' : n'.assignment? = none) (found : s.assignment? = some r)
    (found' : s'.assignment? = some r) : s = s' := by
  have inner (s : Tree) (around : s.kind = .expressionStatement r) : r ∈ s.children := by
    simp [Term.children, around, Kind.children, Kind.slots, Slot.children]
  have inTree {n s : Tree} (member : n ∈ t.subterms) (entry : s ∈ n.children) : s ∈ t.subterms :=
    Term.subterms_trans (Term.child_mem_subterms entry) member
  obtain ⟨-, rfl | around⟩ := Term.assignment?_cases found
  · obtain ⟨-, rfl | around'⟩ := Term.assignment?_cases found'
    · rfl
    · obtain rfl := parent_unique distinct first (inTree second entry') entry (inner s' around')
      rw [unassigned] at found'
      cases found'
  · obtain ⟨-, rfl | around'⟩ := Term.assignment?_cases found'
    · obtain rfl := parent_unique distinct second (inTree first entry) entry' (inner s around)
      rw [unassigned'] at found
      cases found
    · exact parent_unique distinct (inTree first entry) (inTree second entry') (inner s around)
        (inner s' around')

end Tree

theorem Socket.of_listing {l : Label} {k : Kind Tree} {s : Tree} {before after : List Tree}
    (entry : s ∈ (Term.node l k).entries) (split : k.listing = before ++ s :: after) :
    k = (Socket.block before after).fill s ∨
      (before = [] ∧ after = [] ∧
        ∃ cond update body, k = (Socket.header cond update body).fill s) := by
  rcases List.mem_append.mp entry with listed | only
  · have shape : k = .block k.statements := Term.kind_of_statement listed
    rw [shape] at split
    exact .inl (shape.trans (congrArg Kind.block split))
  · obtain ⟨cond, update, body, shape⟩ := Term.onlyInit?_eq_some.mp (by simpa using only)
    rw [Term.kind] at shape
    subst shape
    have single : [s] = before ++ s :: after := split
    cases before with
    | nil =>
      rw [List.nil_append, List.cons.injEq] at single
      exact .inr ⟨rfl, single.2.symm, cond, update, body, rfl⟩
    | cons c rest =>
      have lengths := congrArg List.length single
      simp at lengths

namespace Applied

variable {u : Tree} {size : Nat} {ps : List Patch} {a : Arena} {p : Patch} {x : NodeId}

theorem inScope_of_covers (applied : Applied u size ps a) (made : Tree.Made ps p)
    (covers : p.edit.Covers u x) (left : x ∈ (u.rebuild ps).ids) :
    ∃ note inner init, (u.rebuild ps).InScope (p.declares note inner init) x := by
  have stays {n r : Tree} (member : n ∈ u.subterms) (child : r ∈ n.children) (inside : x ∈ r.ids) :
      x ∈ (r.rebuild ps).ids := by
    have inTree := Term.subterms_trans (Term.child_mem_subterms child) member
    have old : x ∉ Tree.added ps := fun new => applied.unknown x new (Tree.ids_subset inTree inside)
    exact Tree.mem_ids_rebuild_below applied.distinct old inTree inside left
  cases covers with
  | @insertion n s r before after member split site later inside =>
    obtain ⟨l, k⟩ := n
    have listed : s ∈ k.statements := by
      have split : k.statements = before ++ s :: after := split
      simp [split]
    have shape : k = (Socket.block before after).fill s := by
      rw [Socket.fill, ← split]
      exact Term.kind_of_statement listed
    subst shape
    obtain ⟨note, holder⟩ := applied.holder member (List.mem_append_left _ listed)
    have among : p.inserted ∈ Tree.insertions ps s.id :=
      List.mem_map_of_mem (List.mem_filter.mpr ⟨made.mem, by simpa using site⟩)
    obtain ⟨first, last, own⟩ := List.append_of_mem among
    refine ⟨{}, { variableId := p.edit.variableId }, none, _, holder, Tree.rebuildAll ps before ++ first,
      last ++ s.rebuild ps :: Tree.rebuildAll ps after, ?_, r.rebuild ps, ?_, ?_⟩
    · simp [Term.kind, Socket.rebuild, Socket.fill, Kind.listing, own, Patch.inserted]
    · apply List.mem_append_left
      apply List.mem_append_right
      rcases List.mem_cons.mp later with rfl | later
      · exact List.mem_cons_self
      · exact List.mem_cons_of_mem _ (Tree.mem_rebuildAll.mpr ⟨r, later, .inr rfl⟩)
    · have child : r ∈ (Term.node l ((Socket.block before after).fill s)).children := by
        simp only [Term.children, Term.kind, Socket.fill, Kind.children_block]
        exact List.mem_append_right _ later
      exact stays member child inside
  | @folding n s r c before after member entry split found site later inside =>
    obtain ⟨l, k⟩ := n
    obtain ⟨⟨op, y, v, shape⟩, -⟩ := Term.assignment?_cases found
    have made := Tree.rebuild_folded ps found shape (made.chosen site)
    have child : c ∈ (Term.node l k).children := by
      apply Kind.mem_children_of_listing
      rw [split, List.append_assoc, List.cons_append]
      exact List.mem_append_right _ (List.mem_cons_of_mem _ later)
    have still := stays member child inside
    rcases Socket.of_listing entry split with rfl | ⟨rfl, rfl, cond, update, body, rfl⟩
    · obtain ⟨note, holder⟩ := applied.holder member entry
      rw [made, Patch.folded] at holder
      refine ⟨_, _, _, _, holder, Tree.rebuildAll ps before ++ Tree.insertions ps s.id,
        Tree.rebuildAll ps after, rfl, c.rebuild ps, ?_, still⟩
      have listed : c ∈ after := by simpa [Term.kind, Socket.fill, Kind.onward] using later
      exact List.mem_append_left _ (Tree.mem_rebuildAll.mpr ⟨c, listed, .inr rfl⟩)
    · obtain ⟨note, holder⟩ := applied.holder member entry
      rw [made, Patch.folded] at holder
      refine ⟨_, _, _, _, holder, [], [], rfl, c.rebuild ps, ?_, still⟩
      have listed : c ∈ cond.toList ++ update ++ [body] := later
      have mapped := List.mem_map_of_mem (f := Tree.rebuild ps) listed
      simpa [Term.kind, Socket.rebuild, Socket.fill, Kind.onward] using mapped

theorem old_of_rebuild (applied : Applied u size ps a) {r : Tree} (old : x ∈ u.ids)
    (inside : x ∈ (r.rebuild ps).ids) : x ∈ r.ids :=
  (Tree.mem_ids_rebuild inside).resolve_right fun new => applied.unknown x new old

theorem old_of_insertions (applied : Applied u size ps a) {y : NodeId} {c : Tree} (old : x ∈ u.ids)
    (listed : c ∈ Tree.insertions ps y) : x ∉ c.ids :=
  fun inside => applied.unknown x
    (Tree.mem_ids_insertions (List.mem_flatMap.mpr ⟨c, listed, inside⟩)) old

theorem old_of_laid (applied : Applied u size ps a) {rs : List Tree} {c : Tree} (old : x ∈ u.ids)
    (laid : Tree.Laid ps rs c) (inside : x ∈ c.ids) : ∃ r ∈ rs, x ∈ r.ids := by
  rcases laid with ⟨y, new⟩ | ⟨r, known, rfl⟩
  · exact absurd inside (applied.old_of_insertions old new)
  · exact ⟨r, known, applied.old_of_rebuild old inside⟩

theorem entry_of_folded (applied : Applied u size ps a) {n s r : Tree} (member : n ∈ u.subterms)
    (listed : s ∈ n.kind.listing) (found : s.assignment? = some r)
    (folded : Tree.folding? ps (Tree.id r) = some p) : s ∈ n.entries := by
  have child : s ∈ n.children := Kind.mem_children_of_listing (List.mem_append_left _ listed)
  have unassigned : n.assignment? = none := by
    obtain ⟨l, k⟩ := n
    cases k <;> first | rfl | cases listed
  rcases applied.folded_child member child (Option.bind_eq_some_iff.mpr ⟨r, found, folded⟩) with
    entry | assigned
  · exact entry
  · rw [unassigned] at assigned
    cases assigned

theorem covers_of_inScope (applied : Applied u size ps a) {d : Tree}
    (inScope : (u.rebuild ps).InScope d x) (old : x ∈ u.ids) :
    (∃ p, Tree.Made ps p ∧ p.edit.Covers u x ∧
      ∃ note inner init, d = p.declares note inner init) ∨
    ∃ d', u.InScope d' x ∧ Tree.foldedBy? ps d' = none ∧ d = d'.rebuild ps := by
  obtain ⟨m, inside, before, after, split, c, later, within⟩ := inScope
  rcases Tree.mem_subterms_rebuild inside with ⟨n, member, -, note, rfl⟩ | ⟨declarative, -⟩
  · obtain ⟨first, s, last, listed, ⟨p, known, site, statements, rfl, laid⟩ | ⟨rfl, laid⟩⟩ :=
      Tree.listing_rebuild split
    · obtain ⟨r, later, inside⟩ := applied.old_of_laid old (laid c later) within
      have insertion : p.edit.isInsertion = true := by rw [Edit.isInsertion, site]
      exact .inl ⟨p, .inl ⟨known, insertion⟩, .insertion member statements site later inside, _, _, _, rfl⟩
    · obtain ⟨r, later, inside⟩ := applied.old_of_laid old (laid c later) within
      -- A statement that is listed here was folded, or it has been here before.
      cases folded : Tree.foldedBy? ps s with
      | none => exact .inr ⟨s, ⟨n, member, first, last, listed, r, later, inside⟩, folded, rfl⟩
      | some p =>
        obtain ⟨w, found, folded⟩ := Option.bind_eq_some_iff.mp folded
        obtain ⟨⟨op, y, v, shape⟩, -⟩ := Term.assignment?_cases found
        have entry := applied.entry_of_folded member (by simp [listed]) found folded
        refine .inl ⟨p, .inr ⟨_, folded⟩, ?_, _, _, _, Tree.rebuild_folded ps found shape folded⟩
        exact .folding member entry listed found (Tree.folding?_mem folded).2 later inside
  · rw [Tree.listing_of_declarative declarative] at split
    cases before <;> cases split

end Applied

end LocalScope
