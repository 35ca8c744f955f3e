import LocalScope.Proofs.Grafting
import LocalScope.Proofs.Spreading

namespace LocalScope

/-- An edit that has been carried out, with the numbers of the nodes it added. -/
structure Patch where
  edit : Edit
  declaration : NodeId
  binding : NodeId
  isFinal : Bool

namespace Site

def node : Site → NodeId
  | before anchor => anchor
  | inPlaceOf assignment => assignment

end Site

namespace Patch

def declares (p : Patch) (note inner : Annotation) (init : Option Tree) : Tree :=
  .node ⟨p.declaration, note, .shown⟩
    (.declaration p.edit.ty
      [.node ⟨p.binding, inner, .shown⟩ (.binding p.edit.name init)] p.isFinal)

def inserted (p : Patch) : Tree := p.declares {} { variableId := p.edit.variableId } none

/- The value carries the variable of the edit and the member of the assignment. -/
def folded (p : Patch) (note : Annotation) (memberId : Option MemberId) (value : Tree) : Tree :=
  p.declares note {} (some (value.withNote ⟨p.edit.variableId, memberId⟩))

theorem ids_declares (p : Patch) (note inner : Annotation) (init : Option Tree) :
    (p.declares note inner init).ids =
      p.declaration :: p.binding :: init.toList.flatMap Tree.ids := by
  simp [declares, Tree.ids_node, Kind.children, Kind.slots, Slot.children]

theorem ids_inserted (p : Patch) : p.inserted.ids = [p.declaration, p.binding] := by
  simp [inserted, ids_declares]

theorem ids_folded (p : Patch) (note : Annotation) (memberId : Option MemberId) (value : Tree) :
    (p.folded note memberId value).ids = p.declaration :: p.binding :: value.ids := by
  simp [folded, ids_declares, Tree.ids_withNote]

end Patch

namespace Term

variable {ℓ : Type}

/-- The statements of a block, or the only entry of a `for` header: where declarations can be
put. -/
def entries (t : Term ℓ) : List (Term ℓ) := t.kind.statements ++ t.onlyInit?.toList

theorem entry_mem_children {t s : Term ℓ} (entry : s ∈ t.entries) : s ∈ t.children := by
  rcases List.mem_append.mp entry with listed | only
  · exact statement_mem_children listed
  · exact onlyInit?_mem_children (by simpa using only)

theorem assignment?_of_entry {t s : Term ℓ} (entry : s ∈ t.entries) : t.assignment? = none := by
  cases t with
  | node l k =>
    cases k <;> first
      | rfl
      | simp [entries, kind, Kind.statements, onlyInit?] at entry

end Term

namespace Tree

def insertions (ps : List Patch) (x : NodeId) : List Tree :=
  (ps.filter fun p => p.edit.site = .before x).map Patch.inserted

/-- The patch that takes the place of an assignment; the first one counts. -/
def folding? (ps : List Patch) (x : NodeId) : Option Patch :=
  ps.find? fun p => p.edit.site = .inPlaceOf x

/-- The patch that takes the place of a statement, or of an assignment in a statement's place. -/
def foldedBy? (ps : List Patch) (t : Tree) : Option Patch :=
  t.assignment?.bind fun a => folding? ps (id a)

/-- The annotation that a declaration keeps from what it takes the place of. -/
def keptNote (t : Tree) : Annotation :=
  match t.kind with
  | .expressionStatement _ => t.label.note
  | _ => {}

def rebuildNode (ps : List Patch) (l : Label) (k : Kind (Tree × Tree)) : Tree :=
  match k with
  | .block ss => .node l (.block (ss.flatMap fun (s, s') => insertions ps s.id ++ [s']))
  | .assignment op left right =>
    match folding? ps l.id with
    | some p => p.folded {} l.note.memberId right.2
    | none => .node l (.assignment op left.2 right.2)
  | .expressionStatement (e, e') =>
    match e.kind, folding? ps e.id with
    | .assignment .., some _ => e'.withNote l.note
    | _, _ => .node l (.expressionStatement e')
  | k => .node l (k.map Prod.snd)

/-- The tree after all patches. -/
def rebuild (ps : List Patch) : Tree → Tree := Term.compute (rebuildNode ps)

def rebuildAll (ps : List Patch) (ss : List Tree) : List Tree :=
  ss.flatMap fun s => insertions ps s.id ++ [rebuild ps s]

section equations

variable (ps : List Patch)

theorem rebuildAll_append (ss ts : List Tree) :
    rebuildAll ps (ss ++ ts) = rebuildAll ps ss ++ rebuildAll ps ts := List.flatMap_append

theorem rebuildAll_cons (s : Tree) (ss : List Tree) :
    rebuildAll ps (s :: ss) = insertions ps s.id ++ rebuild ps s :: rebuildAll ps ss := by
  simp [rebuildAll]

theorem rebuild_block (l : Label) (ss : List Tree) :
    rebuild ps (.node l (.block ss)) = .node l (.block (rebuildAll ps ss)) := by
  rw [rebuild, Term.compute_node, ← rebuild]
  simp only [rebuildNode, Kind.map, List.flatMap_map, rebuildAll]

theorem rebuild_other (l : Label) (k : Kind Tree) (other : k.isBlock = false)
    (unfolded : foldedBy? ps (.node l k) = none) :
    rebuild ps (.node l k) = .node l (k.map (rebuild ps)) := by
  rw [rebuild, Term.compute_node, ← rebuild]
  cases k with
  | block ss => cases other
  | assignment op left right =>
    have none : folding? ps l.id = none := unfolded
    simp only [rebuildNode, Kind.map, none]
  | expressionStatement e =>
    cases e with
    | node l' k' =>
      cases k' with
      | assignment op left right =>
        have none : folding? ps l'.id = none := unfolded
        have top : id (.node l' (.assignment op left right)) = l'.id := rfl
        simp only [rebuildNode, Kind.map, Term.kind, top, none]
      | _ => simp only [rebuildNode, Kind.map, Term.kind]
  | _ => exact congrArg (Term.node l) (Kind.map_map _ Prod.snd _)

theorem rebuild_folded {t a : Tree} {op : AssignOp} {x e : Tree} {p : Patch}
    (found : t.assignment? = some a) (shape : a.kind = .assignment op x e)
    (folds : folding? ps a.id = some p) :
    rebuild ps t = p.folded t.keptNote a.label.note.memberId (rebuild ps e) := by
  have bare (l : Label) (folds : folding? ps l.id = some p) :
      rebuild ps (.node l (.assignment op x e)) =
        p.folded {} l.note.memberId (rebuild ps e) := by
    rw [rebuild, Term.compute_node, ← rebuild]
    simp only [rebuildNode, Kind.map, folds]
  cases a with
  | node l k =>
    rw [Term.kind] at shape
    subst shape
    obtain ⟨-, rfl | around⟩ := Term.assignment?_cases found
    · exact bare l folds
    · cases t with
      | node l' k' =>
        rw [Term.kind] at around
        subst around
        have top : id (.node l (.assignment op x e)) = l.id := rfl
        rw [rebuild, Term.compute_node, ← rebuild]
        simp only [rebuildNode, Kind.map, Term.kind, folds]
        rw [bare l folds]
        rfl

end equations

theorem rebuild_node (ps : List Patch) (l : Label) (k : Kind Tree) :
    rebuild ps (.node l k) = rebuildNode ps l (k.map fun c => (c, rebuild ps c)) := by
  rw [rebuild, Term.compute_node]

def added (ps : List Patch) : List NodeId := ps.flatMap fun p => [p.declaration, p.binding]

theorem folding?_mem {ps : List Patch} {x : NodeId} {p : Patch} (found : folding? ps x = some p) :
    p ∈ ps ∧ p.edit.site = .inPlaceOf x :=
  ⟨List.mem_of_find?_eq_some found, by simpa using List.find?_some found⟩

theorem foldedBy?_of_unfolded {ps : List Patch} (unfolded : ∀ x, folding? ps x = none) (t : Tree) :
    foldedBy? ps t = none := by
  rw [foldedBy?]
  cases t.assignment? with
  | none => rfl
  | some r => exact unfolded _

theorem mem_ids_insertions {ps : List Patch} {x y : NodeId}
    (inside : y ∈ (insertions ps x).flatMap ids) : y ∈ added ps := by
  simp only [insertions, List.flatMap_map, List.mem_flatMap, List.mem_filter,
    Patch.ids_inserted] at inside
  obtain ⟨p, ⟨member, -⟩, listed⟩ := inside
  exact List.mem_flatMap.mpr ⟨p, member, listed⟩

theorem added_of_mem {ps : List Patch} {p : Patch} (member : p ∈ ps) :
    p.declaration ∈ added ps ∧ p.binding ∈ added ps :=
  ⟨List.mem_flatMap.mpr ⟨p, member, by simp⟩, List.mem_flatMap.mpr ⟨p, member, by simp⟩⟩

/- What a rebuilt node is made of. In the last case something is left out. -/
theorem rebuild_cases (ps : List Patch) (l : Label) (k : Kind Tree) :
    (∃ ss, k = .block ss ∧ rebuild ps (.node l k) = .node l (.block (rebuildAll ps ss))) ∨
    (k.isBlock = false ∧ foldedBy? ps (.node l k) = none ∧
      rebuild ps (.node l k) = .node l (k.map (rebuild ps))) ∨
    ∃ p r op x v, Term.assignment? (.node l k) = some r ∧ r.kind = .assignment op x v ∧
      folding? ps (id r) = some p ∧
      rebuild ps (.node l k) =
        p.folded (keptNote (.node l k)) r.label.note.memberId (rebuild ps v) := by
  cases block : k.isBlock with
  | true =>
    cases k with
    | block ss => exact .inl ⟨ss, rfl, rebuild_block ps l ss⟩
    | _ => cases block
  | false =>
    cases folded : foldedBy? ps (.node l k) with
    | none => exact .inr (.inl ⟨rfl, rfl, rebuild_other ps l k block folded⟩)
    | some p =>
      obtain ⟨r, found, folded⟩ := Option.bind_eq_some_iff.mp folded
      obtain ⟨⟨op, x, v, shape⟩, -⟩ := Term.assignment?_cases found
      exact .inr (.inr ⟨p, r, op, x, v, found, shape, folded, rebuild_folded ps found shape folded⟩)

theorem mem_subterms_assignment {t r x v n : Tree} {op : AssignOp} (found : t.assignment? = some r)
    (shape : r.kind = .assignment op x v) :
    n ∈ t.subterms ↔ n = t ∨ n = r ∨ n ∈ x.subterms ∨ n ∈ v.subterms := by
  cases r with
  | node l k =>
    rw [Term.kind] at shape
    subst shape
    obtain ⟨-, rfl | around⟩ := Term.assignment?_cases found
    · simp [Term.subterms_node, Kind.children, Kind.slots, Slot.children]
    · cases t with
      | node l' k' =>
        rw [Term.kind] at around
        subst around
        simp [Term.subterms_node, Kind.children, Kind.slots, Slot.children]

theorem value_mem_subterms {t r x v : Tree} {op : AssignOp} (found : t.assignment? = some r)
    (shape : r.kind = .assignment op x v) : v ∈ t.subterms :=
  (mem_subterms_assignment found shape).mpr (.inr (.inr (.inr (Term.self_mem_subterms v))))

theorem size_value_lt {t r x v : Tree} {op : AssignOp} (found : t.assignment? = some r)
    (shape : r.kind = .assignment op x v) : v.size < t.size := by
  have child : v ∈ r.children := by
    simp [Term.children, shape, Kind.children, Kind.slots, Slot.children]
  have first := Term.size_lt_of_mem_children child
  have second := Term.size_le_of_mem_subterms (Term.assignment?_mem_subterms found)
  omega

theorem mem_ids_rebuild {ps : List Patch} {t : Tree} {y : NodeId}
    (inside : y ∈ (rebuild ps t).ids) : y ∈ t.ids ∨ y ∈ added ps := by
  induction t using Term.inductSmaller with
  | step t smaller =>
    obtain ⟨l, k⟩ := t
    have children {c : Tree} (child : c ∈ k.children) (within : y ∈ (rebuild ps c).ids) :
        y ∈ ids (.node l k) ∨ y ∈ added ps :=
      (smaller c (Term.size_lt_of_mem_children (t := .node l k) child) within).imp_left
        fun old => ids_child_subset (t := .node l k) child old
    rcases rebuild_cases ps l k with ⟨ss, rfl, made⟩ | ⟨-, -, made⟩ |
      ⟨p, r, op, x, v, found, shape, folded, made⟩
    · rw [made, ids_block, rebuildAll] at inside
      rcases List.mem_cons.mp inside with rfl | below
      · exact .inl (by simp [ids_node])
      · simp only [List.flatMap_assoc, List.flatMap_append, List.flatMap_cons,
          List.flatMap_nil, List.append_nil, List.mem_flatMap, List.mem_append] at below
        obtain ⟨c, child, new | old⟩ := below
        · exact .inr (mem_ids_insertions (List.mem_flatMap.mpr new))
        · exact children (by simpa using child) old
    · rw [made, ids_node, Kind.children_map, List.flatMap_map] at inside
      rcases List.mem_cons.mp inside with rfl | below
      · exact .inl (by simp [ids_node])
      · obtain ⟨c, child, within⟩ := List.mem_flatMap.mp below
        exact children child within
    · have fresh := added_of_mem (folding?_mem folded).1
      rw [made, Patch.ids_folded, List.mem_cons, List.mem_cons] at inside
      rcases inside with rfl | rfl | within
      · exact .inr fresh.1
      · exact .inr fresh.2
      · exact (smaller v (size_value_lt found shape) within).imp_left
          fun old => ids_subset (value_mem_subterms found shape) old

/-- Two lists of patches that say the same about a node. -/
def Agree (ps qs : List Patch) (x : NodeId) : Prop :=
  insertions ps x = insertions qs x ∧ folding? ps x = folding? qs x

theorem agree_append {ps : List Patch} {p : Patch} {x : NodeId} (apart : p.edit.site.node ≠ x) :
    Agree (ps ++ [p]) ps x := by
  have notBefore : ¬ p.edit.site = .before x := fun same => apart (by rw [same]; rfl)
  have notInPlace : ¬ p.edit.site = .inPlaceOf x := fun same => apart (by rw [same]; rfl)
  constructor
  · simp [insertions, notBefore]
  · simp [folding?, notInPlace]

theorem rebuildNode_congr {ps qs : List Patch} {l : Label} {k : Kind (Tree × Tree)}
    (own : folding? ps l.id = folding? qs l.id) (below : ∀ c ∈ k.children, Agree ps qs (id c.1)) :
    rebuildNode ps l k = rebuildNode qs l k := by
  cases k with
  | block ss =>
    simp only [rebuildNode]
    congr 2
    apply List.flatMap_congr
    intro s member
    rw [(below s (by simpa using member)).1]
  | assignment op left right => simp only [rebuildNode, own]
  | expressionStatement e =>
    have inner := (below e (by simp [Kind.children, Kind.slots, Slot.children])).2
    obtain ⟨e, e'⟩ := e
    simp only [rebuildNode, inner]
  | _ => rfl

/-- Patches elsewhere do not matter, nor does what is inserted before the tree as a whole. -/
theorem rebuild_congr {ps qs : List Patch} {t : Tree} (own : folding? ps t.id = folding? qs t.id)
    (agree : ∀ x ∈ t.children.flatMap ids, Agree ps qs x) : rebuild ps t = rebuild qs t := by
  induction t using Term.inductChildren with
  | step l k ih =>
    have inside {c : Tree} (child : c ∈ k.children) {x : NodeId} (member : x ∈ c.ids) :
        Agree ps qs x := agree x (List.mem_flatMap.mpr ⟨c, child, member⟩)
    have same : (k.map fun c => (c, rebuild ps c)) = k.map fun c => (c, rebuild qs c) := by
      apply Kind.map_congr
      intro c child
      have deeper : ∀ x ∈ c.children.flatMap ids, Agree ps qs x := by
        intro x member
        obtain ⟨d, grandchild, within⟩ := List.mem_flatMap.mp member
        exact inside child (ids_child_subset grandchild within)
      rw [ih c child (inside child (id_mem_ids c)).2 deeper]
    rw [rebuild_node, rebuild_node, same]
    apply rebuildNode_congr own
    rw [Kind.children_map]
    intro pair member
    obtain ⟨c, child, rfl⟩ := List.mem_map.mp member
    exact inside child (id_mem_ids c)

theorem rebuild_append_of_not_mem {ps : List Patch} {p : Patch} {t : Tree}
    (apart : p.edit.site.node ∉ t.ids) : rebuild (ps ++ [p]) t = rebuild ps t := by
  have elsewhere (x : NodeId) (inside : x ∈ t.ids) : Agree (ps ++ [p]) ps x :=
    agree_append fun same => apart (same ▸ inside)
  apply rebuild_congr (elsewhere _ (id_mem_ids t)).2
  intro x member
  obtain ⟨c, child, within⟩ := List.mem_flatMap.mp member
  exact elsewhere x (ids_child_subset child within)

theorem rebuildAll_append_of_not_mem {ps : List Patch} {p : Patch} {ss : List Tree}
    (apart : p.edit.site.node ∉ ss.flatMap ids) : rebuildAll (ps ++ [p]) ss = rebuildAll ps ss := by
  apply List.flatMap_congr
  intro s listed
  have outside : p.edit.site.node ∉ s.ids :=
    fun inside => apart (List.mem_flatMap.mpr ⟨s, listed, inside⟩)
  have same : Agree (ps ++ [p]) ps s.id := agree_append fun same => outside (same ▸ id_mem_ids s)
  rw [rebuild_append_of_not_mem outside, same.1]

theorem rebuild_nil (t : Tree) : rebuild [] t = t := by
  induction t using Term.inductChildren with
  | step l k ih =>
    cases block : k.isBlock with
    | false =>
      have unfolded : foldedBy? [] (.node l k) = none := by
        rw [foldedBy?]
        cases Term.assignment? (.node l k) <;> rfl
      rw [rebuild_other [] l k block unfolded, Kind.map_eq_self k ih]
    | true =>
      cases k with
      | block ss =>
        have same : rebuildAll [] ss = ss := by
          have each (s : Tree) (listed : s ∈ ss) : insertions [] s.id ++ [rebuild [] s] = [s] := by
            rw [ih s (by simpa using listed)]
            rfl
          rw [rebuildAll, List.flatMap_congr each, List.flatMap_singleton']
        rw [rebuild_block, same]
      | _ => cases block

section grafting

variable {x : NodeId} {new : Kind Tree} {ps : List Patch}

theorem graft_insertions (fresh : x ∉ added ps) (y : NodeId) :
    (insertions ps y).map (graft x new) = insertions ps y := by
  have each (d : Tree) (member : d ∈ insertions ps y) : graft x new d = d := by
    apply graft_of_not_mem
    exact fun inside => fresh (mem_ids_insertions (List.mem_flatMap.mpr ⟨d, member, inside⟩))
  rw [List.map_congr_left each, List.map_id']

theorem graft_folded {p : Patch} (declaration : p.declaration ≠ x) (binding : p.binding ≠ x)
    (note : Annotation) (memberId : Option MemberId) (value : Tree) :
    graft x new (p.folded note memberId value) = p.folded note memberId (graft x new value) := by
  simp only [Patch.folded, Patch.declares, graft_node, declaration, if_false, Kind.map,
    List.map_cons, List.map_nil, binding, Option.map_some, graft_withNote]

theorem graft_rebuildNode {l : Label} (other : l.id ≠ x) (fresh : x ∉ added ps)
    (k : Kind (Tree × Tree)) :
    graft x new (rebuildNode ps l k) =
      rebuildNode ps l (k.map fun (c, c') => (c, graft x new c')) := by
  cases k with
  | block ss =>
    simp only [rebuildNode, Kind.map, graft_node, other, if_false, List.map_flatMap,
      List.map_append, List.map_cons, List.map_nil, graft_insertions fresh, List.flatMap_map]
  | assignment op left right =>
    simp only [rebuildNode, Kind.map]
    cases found : folding? ps l.id with
    | none => simp only [graft_node, other, if_false, Kind.map]
    | some p =>
      have known := added_of_mem (folding?_mem found).1
      have declaration : p.declaration ≠ x := fun same => fresh (same ▸ known.1)
      have binding : p.binding ≠ x := fun same => fresh (same ▸ known.2)
      exact graft_folded declaration binding _ _ _
  | expressionStatement e =>
    obtain ⟨⟨l', k'⟩, e'⟩ := e
    have otherwise : graft x new (.node l (.expressionStatement e')) =
        .node l (.expressionStatement (graft x new e')) := by
      simp only [graft_node, other, if_false, Kind.map]
    simp only [rebuildNode, Kind.map]
    split
    · exact graft_withNote _ _
    · exact otherwise
  | _ => simp [rebuildNode, Kind.map, graft_node, other, Function.comp_def]

end grafting

end Tree

/-- An edit that is about an entry of this node. -/
def Edit.At (e : Edit) (n : Tree) : Prop :=
  (∃ s ∈ n.statements, e.site = .before s.id) ∨
  ∃ s ∈ n.entries, ∃ a, s.assignment? = some a ∧ e.site = .inPlaceOf (Tree.id a) ∧
    ∃ x value, a.kind = .assignment .plain x value ∧ x.isIdentifier e.name = true

theorem Edit.At.inside {e : Edit} {n : Tree} (at' : e.At n) :
    ∃ s ∈ n.children, ∃ r ∈ s.subterms, Tree.id r = e.site.node := by
  rcases at' with ⟨s, listed, site⟩ | ⟨s, entry, a, found, site, -⟩
  · exact ⟨s, Term.statement_mem_children listed, s, Term.self_mem_subterms s, by rw [site]; rfl⟩
  · exact ⟨s, Term.entry_mem_children entry, a, Term.assignment?_mem_subterms found,
      by rw [site]; rfl⟩

theorem Edit.At.entry {e : Edit} {n : Tree} (at' : e.At n) : ∃ s, s ∈ n.entries := by
  rcases at' with ⟨s, listed, -⟩ | ⟨s, entry, -⟩
  · exact ⟨s, List.mem_append_left _ listed⟩
  · exact ⟨s, entry⟩

namespace Tree

variable {ps : List Patch} {p : Patch} {t n : Tree}

theorem agree_above (ps : List Patch) {l : Label} {k : Kind Tree} (distinct : (ids (.node l k)).Nodup)
    (at' : p.edit.At n) {c : Tree} (child : c ∈ k.children) (below : n ∈ c.subterms) :
    Agree (ps ++ [p]) ps l.id ∧ ∀ d ∈ k.children, Agree (ps ++ [p]) ps d.id := by
  obtain ⟨s, inner, r, inside, named⟩ := at'.inside
  have deep : r ∈ c.subterms :=
    Term.subterms_trans (Term.mem_subterms_of_child inner inside) below
  constructor
  · apply agree_append
    rw [← named]
    intro same
    rw [ids_node, List.nodup_cons] at distinct
    exact distinct.1 (same ▸ List.mem_flatMap.mpr ⟨c, child, ids_subset deep (id_mem_ids r)⟩)
  · intro d second
    apply agree_append
    rw [← named]
    intro same
    have equal : d = c :=
      child_of_common distinct child deep second (id_mem_ids r) (same ▸ id_mem_ids d)
    subst equal
    -- The number would be that of a node and of one below it.
    have top : r = d := by
      rw [ids_node, List.nodup_cons] at distinct
      have own := distinct.2.sublist (List.sublist_flatten_of_mem (List.mem_map_of_mem child))
      exact List.inj_on_of_nodup_map own deep (Term.self_mem_subterms d) same
    have first := Term.size_lt_of_mem_children inner
    have second := Term.size_le_of_mem_subterms inside
    have third := Term.size_le_of_mem_subterms below
    rw [top] at second
    omega

theorem label_rebuild (ps : List Patch) (unfolded : foldedBy? ps t = none) :
    (rebuild ps t).label = t.label := by
  cases t with
  | node l k =>
    cases block : k.isBlock with
    | false => rw [rebuild_other ps l k block unfolded]; rfl
    | true =>
      cases k with
      | block ss => rw [rebuild_block]; rfl
      | _ => cases block

theorem foldedBy?_of_entry (ps : List Patch) {s : Tree} (entry : s ∈ n.entries) :
    foldedBy? ps n = none := by
  rw [foldedBy?, Term.assignment?_of_entry entry]
  rfl

theorem rebuild_append (distinct : t.ids.Nodup) (fresh : ∀ y ∈ added ps, y ∉ t.ids)
    (at' : p.edit.At n) (member : n ∈ t.subterms) :
    rebuild (ps ++ [p]) t = graft n.id (rebuild (ps ++ [p]) n).kind (rebuild ps t) := by
  induction t using Term.inductChildren with
  | step l k ih =>
    rcases Term.mem_subterms_node.mp member with rfl | ⟨c, child, below⟩
    · obtain ⟨s, entry⟩ := at'.entry
      have before := label_rebuild ps (foldedBy?_of_entry ps entry)
      have after := label_rebuild (ps ++ [p]) (foldedBy?_of_entry (ps ++ [p]) entry)
      have split (r : Tree) : r = .node r.label r.kind := by
        cases r
        rfl
      rw [split (rebuild ps (.node l k)), before, id, graft_self, ← after, ← split]
    · have apart : n.id ∉ added ps := fun inside =>
        fresh _ inside (ids_subset member (id_mem_ids n))
      have other : l.id ≠ n.id := by
        intro same
        rw [ids_node, List.nodup_cons] at distinct
        exact distinct.1 (same ▸ List.mem_flatMap.mpr ⟨c, child, ids_subset below (id_mem_ids n)⟩)
      obtain ⟨own, siblings⟩ := agree_above ps distinct at' child below
      have each (d : Tree) (second : d ∈ k.children) :
          rebuild (ps ++ [p]) d = graft n.id (rebuild (ps ++ [p]) n).kind (rebuild ps d) := by
        have within : ids d ⊆ ids (.node l k) := ids_child_subset (t := .node l k) second
        by_cases same : d = c
        · subst same
          have inTree : d ∈ (Term.node l k).subterms := Term.child_mem_subterms second
          exact ih d second (distinct.sublist (ids_sublist inTree)) (fun y new inside =>
            fresh y new (within inside)) below
        · have outside (y : NodeId) (inside : y ∈ n.ids) : y ∉ d.ids :=
            fun common => same (child_of_common distinct child below second inside common)
          have untouched : rebuild (ps ++ [p]) d = rebuild ps d := by
            apply rebuild_append_of_not_mem
            obtain ⟨s, inner, r, deep, named⟩ := at'.inside
            rw [← named]
            exact outside _ (ids_subset (Term.mem_subterms_of_child inner deep) (id_mem_ids r))
          rw [untouched, graft_of_not_mem]
          intro inside
          rcases mem_ids_rebuild inside with old | new
          · exact outside _ (id_mem_ids n) old
          · exact apart new
      have mapped : (k.map fun d => (d, rebuild (ps ++ [p]) d)) =
          (k.map fun d => (d, rebuild ps d)).map
            fun (d, d') => (d, graft n.id (rebuild (ps ++ [p]) n).kind d') := by
        rw [Kind.map_map]
        exact Kind.map_congr k fun d second => by rw [each d second]
      rw [rebuild_node, rebuild_node ps, graft_rebuildNode other apart, ← mapped]
      apply rebuildNode_congr own.2
      rw [Kind.children_map]
      intro pair inside
      obtain ⟨d, second, rfl⟩ := List.mem_map.mp inside
      exact siblings d second

/-- Only assignments to a variable are folded. -/
def FoldsVariables (ps : List Patch) (t : Tree) : Prop :=
  ∀ l op x e, .node l (.assignment op x e) ∈ t.subterms → (folding? ps l.id).isSome = true →
    ∃ name, x.kind = .identifier name

theorem FoldsVariables.below (folds : FoldsVariables ps t) (member : n ∈ t.subterms) :
    FoldsVariables ps n :=
  fun l op x e inside => folds l op x e (Term.subterms_trans inside member)

theorem withNote_self (t : Tree) : t.withNote t.label.note = t := by
  cases t
  rfl

theorem withNote_mem_subterms {r : Tree} (note : Annotation) (inside : r ∈ t.subterms) :
    ∃ note', r.withNote note' ∈ (t.withNote note).subterms := by
  cases t with
  | node l k =>
    rcases Term.mem_subterms_node.mp inside with rfl | ⟨c, child, below⟩
    · exact ⟨note, Term.self_mem_subterms _⟩
    · refine ⟨r.label.note, ?_⟩
      rw [withNote_self]
      exact Term.mem_subterms_of_child (t := withNote note (.node l k)) child below

theorem mem_subterms_folded {p : Patch} {note : Annotation} {memberId : Option MemberId}
    {value m : Tree} (inside : m ∈ (value.withNote ⟨p.edit.variableId, memberId⟩).subterms) :
    m ∈ (p.folded note memberId value).subterms := by
  simp only [Patch.folded, Patch.declares, Term.subterms_node, Kind.children, Kind.slots,
    Slot.children, List.flatMap_cons, List.flatMap_nil, List.append_nil, Option.toList_some,
    List.mem_cons]
  exact .inr (.inr inside)

theorem rebuild_mem_subterms (folds : FoldsVariables ps t) (member : n ∈ t.subterms)
    (kept : foldedBy? ps n = none) (inner : ∀ name, n.kind ≠ .identifier name) :
    ∃ note, (rebuild ps n).withNote note ∈ (rebuild ps t).subterms := by
  induction t using Term.inductSmaller with
  | step t smaller =>
    obtain ⟨l, k⟩ := t
    by_cases whole : n = .node l k
    · subst whole
      refine ⟨(rebuild ps (.node l k)).label.note, ?_⟩
      rw [withNote_self]
      exact Term.self_mem_subterms _
    have children {c : Tree} (child : c ∈ k.children) (below : n ∈ c.subterms) :
        ∃ note, (rebuild ps n).withNote note ∈ (rebuild ps c).subterms :=
      smaller c (Term.size_lt_of_mem_children (t := .node l k) child)
        (folds.below (Term.child_mem_subterms (t := .node l k) child)) below
    rcases rebuild_cases ps l k with ⟨ss, rfl, made⟩ | ⟨-, -, made⟩ |
      ⟨p, r, op, x, v, found, shape, folded, made⟩
    · obtain ⟨c, child, below⟩ := (Term.mem_subterms_node.mp member).resolve_left whole
      obtain ⟨note, inside⟩ := children child below
      refine ⟨note, ?_⟩
      rw [made]
      refine Term.mem_subterms_of_child (c := rebuild ps c) ?_ inside
      rw [Kind.children_block] at child
      simp only [Term.children, Term.kind, Kind.children_block, rebuildAll, List.mem_flatMap]
      exact ⟨c, child, by simp⟩
    · obtain ⟨c, child, below⟩ := (Term.mem_subterms_node.mp member).resolve_left whole
      obtain ⟨note, inside⟩ := children child below
      refine ⟨note, ?_⟩
      rw [made]
      refine Term.mem_subterms_of_child (c := rebuild ps c) ?_ inside
      simp only [Term.children, Term.kind, Kind.children_map]
      exact List.mem_map_of_mem child
    · rcases (mem_subterms_assignment found shape).mp member with rfl | rfl | inLeft | inRight
      · exact absurd rfl whole
      · have own : Term.assignment? n = some n := by
          simp only [Term.assignment?, shape]
        rw [foldedBy?, own, Option.bind_some, folded] at kept
        cases kept
      · have inTree := Term.assignment?_mem_subterms found
        cases r with
        | node l' k' =>
          rw [Term.kind] at shape
          subst shape
          obtain ⟨name, identifier⟩ := folds l' op x v inTree (Option.isSome_of_eq_some folded)
          cases x with
          | node lx kx =>
            rw [Term.kind] at identifier
            subst identifier
            simp only [Term.subterms_node, Kind.children, Kind.slots, List.flatMap_nil,
              List.mem_singleton] at inLeft
            exact absurd (by rw [inLeft]; rfl) (inner name)
      · obtain ⟨note, inside⟩ := smaller v (size_value_lt found shape)
          (folds.below (value_mem_subterms found shape)) inRight
        obtain ⟨note', again⟩ :=
          withNote_mem_subterms ⟨p.edit.variableId, r.label.note.memberId⟩ inside
        refine ⟨note', ?_⟩
        rw [made]
        exact mem_subterms_folded again

theorem rebuild_mem_of_entry (folds : FoldsVariables ps t) (member : n ∈ t.subterms) {s : Tree}
    (entry : s ∈ n.entries) : ∃ note, (rebuild ps n).withNote note ∈ (rebuild ps t).subterms :=
  rebuild_mem_subterms folds member (foldedBy?_of_entry ps entry) fun x shape => by
    simp [Term.entries, shape, Kind.statements, Term.onlyInit?] at entry

end Tree

end LocalScope
