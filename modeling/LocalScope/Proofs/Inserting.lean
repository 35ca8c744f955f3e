import LocalScope.Proofs.Rewriting

namespace LocalScope

theorem SlotEdit.insertBefore_append {α : Type} [DecidableEq α] {x y : α} (before after : List α)
    (first : x ∉ before) :
    SlotEdit.insertBefore x y (before ++ x :: after) = before ++ y :: x :: after := by
  induction before with
  | nil => simp [SlotEdit.insertBefore]
  | cons z rest ih =>
    rw [List.mem_cons, not_or] at first
    have differs : ¬ z = x := fun same => first.1 same.symm
    simp only [List.cons_append, SlotEdit.insertBefore, differs, if_false, ih first.2]

namespace Arena

variable {a b : Arena}

/-- One change of an arena: it held one tree and holds another, and what is in neither is as it
was. -/
structure Carried (t t' : Tree) (a b : Arena) : Prop where
  holds : b.Holds t'
  confined : Confined t.ids a b
  fresh : ∀ y ∈ t'.ids, y ∈ t.ids ∨ a.size ≤ y.index

theorem Holds.carried {t n : Tree} {new : Kind Tree} (held : a.Holds t) (member : n ∈ t.subterms)
    (changed : b.Holds (.node n.label new)) (confined : Confined n.ids a b)
    (root : b.parent? n.id = a.parent? n.id)
    (fresh : ∀ y ∈ new.children.flatMap Tree.ids, y ∈ n.ids ∨ a.size ≤ y.index) :
    Carried t (Tree.graft n.id new t) a b where
  holds := by
    apply held.graft member changed confined (fun _ _ inside => inside) root
    intro y added inside
    rcases fresh y added with old | new
    · exact old
    · exact absurd (held.index_lt inside) (Nat.not_lt.mpr new)
  confined := confined.mono (Tree.ids_subset member)
  fresh y inside := by
    rcases Tree.mem_ids_graft inside with old | ⟨-, added⟩
    · exact .inl old
    · exact (fresh y added).imp_left fun old => Tree.ids_subset member old

end Arena

theorem Editing.insertBefore_run {a : Arena} {anchor child block : NodeId} {ids : List NodeId}
    (link : a.parent? anchor = some block) (row : a.kind block = .ok (.block ids))
    (listed : anchor ∈ ids) :
    insertBefore anchor child a =
      .ok () ((a.setKind block (.block (SlotEdit.insertBefore anchor child ids))).link
        child block) := by
  rw [insertBefore, bind_ok (parentOf_ok _ link row)]
  simp only [Kind.insertion_block listed]
  rfl

namespace Edit

open Editing

variable {a : Arena} {t : Tree}

theorem finality_ok {scope : Tree} (held : a.Holds scope) (markFinal : Bool) (name : String) :
    finality markFinal scope.id name a =
      .ok (markFinal && scope.writeCount name == 1) a := by
  cases markFinal with
  | false => rfl
  | true =>
    rw [finality, if_pos rfl, bind_ok (query_ok held.whole_eq)]
    rfl

theorem add_ok (kind : Kind NodeId) (note : Annotation) :
    add kind note a = .ok ⟨a.size⟩ (a.push kind note).2 := rfl

/- The arena after an insertion, step by step. -/
def insertedArena (a : Arena) (p : Patch) (block : NodeId) (statements : List NodeId) : Arena :=
  let bound := (a.push (.binding p.edit.name none) { variableId := p.edit.variableId }).2
  let declared := (bound.push (.declaration p.edit.ty [p.binding] p.isFinal) {}).2
  (declared.setKind block (.block statements)).link p.declaration block

section insertion

variable {l : Label} {before after : List Tree} {s : Tree} (markFinal : Bool) (e : Edit)

theorem insert_run (held : a.Holds (.node l (.block (before ++ s :: after)))) :
    let p : Patch := ⟨e, ⟨a.size + 1⟩, ⟨a.size⟩,
      markFinal && Term.writeCount e.name (.node l (.block (before ++ s :: after))) == 1⟩
    insert markFinal e s.id a = .ok true (insertedArena a p l.id
      (before.map Tree.id ++ p.declaration :: s.id :: after.map Tree.id)) := by
  intro p
  obtain ⟨-, row, children, outside, apart⟩ := Arena.holds_block.mp held
  have member : s ∈ before ++ s :: after := by simp
  have parent := (children s member).1
  have known : (get : Editing Arena) a = .ok a a := rfl
  have first : s.id ∉ before.map Tree.id := by
    have once := apart.sublist (Tree.map_id_sublist _)
    rw [List.map_append, List.map_cons, List.nodup_append] at once
    exact fun inside => once.2.2 _ inside _ (by simp) rfl
  have oldStatement := (children s member).2.index_lt (Tree.id_mem_ids s)
  have notBinding : s.id ≠ ⟨a.size⟩ := by
    intro same
    rw [same] at oldStatement
    exact Nat.lt_irrefl _ oldStatement
  let bound := (a.push (.binding e.name none) { variableId := e.variableId }).2
  let declared := (bound.push (.declaration e.ty [⟨a.size⟩] p.isFinal) {}).2
  have link : declared.parent? s.id = some l.id := by
    simp only [declared, bound, Arena.parent?_push]
    simpa [Kind.children, Kind.slots, Slot.children, notBinding] using parent
  have oldBlock : l.id.index < a.size := Arena.index_lt_of_get? a _ row
  have rowNow : declared.kind l.id = .ok (.block ((before ++ s :: after).map Tree.id)) := by
    have wider : l.id.index < bound.size := by
      rw [Arena.size_push]
      exact Nat.lt_succ_of_lt oldBlock
    rw [Arena.kind, Arena.node, Arena.get?_push_old wider, Arena.get?_push_old oldBlock, row]
    rfl
  have listed : s.id ∈ (before ++ s :: after).map Tree.id := List.mem_map_of_mem member
  have final : finality markFinal l.id e.name a = .ok p.isFinal a :=
    finality_ok held markFinal e.name
  rw [insert, bind_ok known]
  simp only [parent]
  rw [bind_ok final, bind_ok (add_ok _ _), bind_ok (add_ok _ _),
    bind_ok (insertBefore_run link rowNow listed), List.map_append, List.map_cons,
    SlotEdit.insertBefore_append _ _ first, Arena.size_push]
  rfl

section rows

variable (p : Patch) (block : NodeId) (statements : List NodeId)

theorem get?_insertedArena {y : NodeId} (old : y.index < a.size) :
    (insertedArena a p block statements).nodes.get? y =
      if y = block then (a.nodes.get? y).map fun n => { n with kind := .block statements }
      else a.nodes.get? y := by
  have wider : y.index < (a.push (.binding p.edit.name none)
      { variableId := p.edit.variableId }).2.size := by
    rw [Arena.size_push]
    exact Nat.lt_succ_of_lt old
  simp only [insertedArena, Arena.get?_link, Arena.get?_setKind, Arena.get?_push_old wider,
    Arena.get?_push_old old]

theorem size_insertedArena : (insertedArena a p block statements).size = a.size + 2 := by
  simp [insertedArena]

variable {p} (binding : p.binding = ⟨a.size⟩) (declaration : p.declaration = ⟨a.size + 1⟩)

include binding declaration

theorem parent?_insertedArena {y : NodeId} (old : y.index < a.size) :
    (insertedArena a p block statements).parent? y = a.parent? y := by
  have notDeclaration : ¬ p.declaration = y := by
    rw [declaration]
    rintro rfl
    simp at old
  have notBinding : ¬ y = p.binding := by
    rw [binding]
    rintro rfl
    simp at old
  simp [insertedArena, Arena.parent?_link, Arena.parent?_push, Kind.children, Kind.slots,
    Slot.children, notDeclaration, notBinding]

theorem holds_inserted (old : block.index < a.size) :
    (insertedArena a p block statements).Holds p.inserted ∧
      (insertedArena a p block statements).parent? p.declaration = some block := by
  have apart : p.declaration ≠ p.binding := by simp [binding, declaration]
  have notBlock (i : Nat) (new : a.size ≤ i) : ¬ (⟨i⟩ : NodeId) = block := by
    rintro rfl
    simp only at old
    omega
  have notFirst := notBlock (a.size + 1) (by omega)
  have notSecond := notBlock a.size (by omega)
  have root : (insertedArena a p block statements).parent? p.declaration = some block := by
    simp [insertedArena, Arena.parent?_link]
  refine ⟨Arena.holds_node.mpr ⟨rfl, ?_, ?_, ?_⟩, root⟩
  · simp [insertedArena, Arena.get?_setKind, notFirst, Arena.get?_push, declaration, Kind.map,
      Tree.id, Term.label]
  · intro c child
    have only : c = .node ⟨p.binding, { variableId := p.edit.variableId }, .shown⟩
        (.binding p.edit.name none) := by
      simpa [Kind.children, Kind.slots, Slot.children] using child
    subst only
    have own : Tree.id (.node ⟨p.binding, { variableId := p.edit.variableId }, .shown⟩
        (.binding p.edit.name none)) = p.binding := rfl
    refine ⟨?_, Arena.holds_node.mpr ⟨rfl, ?_, ?_, ?_⟩⟩
    · rw [own]
      simp [insertedArena, Arena.parent?_link, Arena.parent?_push, Kind.children,
        Kind.slots, Slot.children, binding, declaration]
    · simp [insertedArena, Arena.get?_setKind, notSecond, Arena.get?_push, binding, Kind.map]
    · simp [Kind.children, Kind.slots, Slot.children]
    · simp [Tree.ids_node, Kind.children, Kind.slots, Slot.children]
  · have listed := p.ids_inserted
    rw [Patch.inserted, Patch.declares] at listed
    rw [listed]
    simpa using apart

end rows

section block

variable {p : Patch} (binding : p.binding = ⟨a.size⟩) (declaration : p.declaration = ⟨a.size + 1⟩)

include binding declaration

theorem index_inserted {y : NodeId} (inside : y ∈ p.inserted.ids) : a.size ≤ y.index := by
  rw [Patch.ids_inserted] at inside
  rcases List.mem_cons.mp inside with rfl | inside
  · simp [declaration]
  · rw [List.mem_singleton.mp inside]
    simp [binding]

theorem holds_statement (held : a.Holds (.node l (.block (before ++ s :: after)))) {c : Tree}
    (listed : c ∈ before ++ s :: after) (statements : List NodeId) :
    (insertedArena a p l.id statements).parent? c.id = some l.id ∧
      (insertedArena a p l.id statements).Holds c := by
  obtain ⟨-, -, children, outside, -⟩ := Arena.holds_block.mp held
  have old {y : NodeId} (inside : y ∈ c.ids) : y.index < a.size :=
    held.index_lt (Tree.ids_child_subset (t := .node l (.block (before ++ s :: after)))
      (by simpa [Term.children, Term.kind] using listed) inside)
  refine ⟨?_, (children c listed).2.frame ?_ ?_⟩
  · rw [parent?_insertedArena _ _ binding declaration (old (Tree.id_mem_ids c)), (children c listed).1]
  · intro y inside
    have differs : ¬ y = l.id := by
      rintro rfl
      exact outside (List.mem_flatMap.mpr ⟨c, listed, inside⟩)
    rw [get?_insertedArena _ _ _ (old inside), if_neg differs]
  · intro y inside _
    exact parent?_insertedArena _ _ binding declaration (old inside)

theorem holds_insertedArena (held : a.Holds (.node l (.block (before ++ s :: after)))) :
    (insertedArena a p l.id (before.map Tree.id ++ p.declaration :: s.id :: after.map Tree.id)).Holds
      (.node l (.block (before ++ p.inserted :: s :: after))) := by
  obtain ⟨shown, row, -, outside, apart⟩ := Arena.holds_block.mp held
  have own : l.id.index < a.size := held.index_lt (Tree.id_mem_ids _)
  obtain ⟨new, link⟩ := holds_inserted l.id
    (before.map Tree.id ++ p.declaration :: s.id :: after.map Tree.id) binding declaration own
  have rest : (before ++ p.inserted :: s :: after).Perm (p.inserted :: (before ++ s :: after)) :=
    List.perm_middle
  have unlisted (y : NodeId) (inside : y ∈ p.inserted.ids) :
      y ∉ Tree.ids (.node l (.block (before ++ s :: after))) := fun listed =>
    absurd (held.index_lt listed) (Nat.not_lt.mpr (index_inserted binding declaration inside))
  refine Arena.holds_block.mpr ⟨shown, ?_, ?_, ?_, ?_⟩
  · rw [get?_insertedArena _ _ _ own, if_pos rfl, row]
    simp [Patch.inserted, Patch.declares, Tree.id, Term.label]
  · intro c listed
    rcases List.mem_cons.mp (rest.subset listed) with rfl | kept
    · exact ⟨link, new⟩
    · exact holds_statement binding declaration held kept _
  · rw [(rest.flatMap_right _).mem_iff, List.flatMap_cons, List.mem_append, not_or]
    exact ⟨fun inside => unlisted _ inside (Tree.id_mem_ids _), outside⟩
  · rw [(rest.flatMap_right _).nodup_iff, List.flatMap_cons, List.nodup_append]
    refine ⟨new.distinct, apart, ?_⟩
    rintro y inside _ listed rfl
    exact unlisted y inside (by rw [Tree.ids_block]; exact List.mem_cons_of_mem _ listed)

theorem carried_insertedArena (held : a.Holds t)
    (member : .node l (.block (before ++ s :: after)) ∈ t.subterms) :
    Arena.Carried t (Tree.graft l.id (.block (before ++ p.inserted :: s :: after)) t) a
      (insertedArena a p l.id (before.map Tree.id ++ p.declaration :: s.id :: after.map Tree.id)) := by
  have block := held.below member
  refine held.carried member (holds_insertedArena binding declaration block) ?_ ?_ ?_
  · refine ⟨by simp [size_insertedArena], ?_, ?_⟩
    · intro y elsewhere known
      have differs : ¬ y = l.id := by
        rintro rfl
        exact elsewhere (Tree.id_mem_ids _)
      rw [get?_insertedArena _ _ _ known, if_neg differs]
    · exact fun y _ known => parent?_insertedArena _ _ binding declaration known
  · exact parent?_insertedArena _ _ binding declaration (block.index_lt (Tree.id_mem_ids _))
  · intro y inside
    have rest : (before ++ p.inserted :: s :: after).Perm (p.inserted :: (before ++ s :: after)) :=
      List.perm_middle
    rw [Kind.children_block, (rest.flatMap_right _).mem_iff, List.flatMap_cons,
      List.mem_append] at inside
    rcases inside with added | kept
    · exact .inr (index_inserted binding declaration added)
    · exact .inl (by rw [Tree.ids_block]; exact List.mem_cons_of_mem _ kept)

end block

theorem insert_ok (held : a.Holds t)
    (member : .node l (.block (before ++ s :: after)) ∈ t.subterms) :
    ∃ p b, insert markFinal e s.id a = .ok true b ∧ p.edit = e ∧
      p.isFinal =
        (markFinal && Term.writeCount e.name (.node l (.block (before ++ s :: after))) == 1) ∧
      (∀ y ∈ Tree.added [p], a.size ≤ y.index) ∧
      Arena.Carried t (Tree.graft l.id (.block (before ++ p.inserted :: s :: after)) t) a b :=
  ⟨_, _, insert_run markFinal e (held.below member), rfl, rfl, by simp [Tree.added],
    carried_insertedArena rfl rfl held member⟩

end insertion

end Edit

end LocalScope
