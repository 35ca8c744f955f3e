import LocalScope.Proofs.Inserting
import LocalScope.Proofs.Sockets

namespace LocalScope

theorem Arena.Holds.withNote {a b : Arena} {t : Tree} {note : Annotation} (held : a.Holds t)
    (own : b.nodes.get? t.id = some ⟨t.kind.map Tree.id, note⟩)
    (rows : ∀ x ∈ t.ids, x ≠ t.id → b.nodes.get? x = a.nodes.get? x)
    (parents : ∀ x ∈ t.ids, x ≠ t.id → b.parent? x = a.parent? x) :
    b.Holds (t.withNote note) := by
  cases t with
  | node l k =>
    obtain ⟨shown, row, children, distinct⟩ := holds_node.mp held
    have inner (x : NodeId) (inside : x ∈ k.children.flatMap Tree.ids) :
        x ∈ Tree.ids (.node l k) ∧ x ≠ l.id := by
      rw [Tree.ids_node] at distinct ⊢
      exact ⟨List.mem_cons_of_mem _ inside,
        fun same => (List.nodup_cons.mp distinct).1 (same ▸ inside)⟩
    refine holds_node.mpr ⟨shown, own, ?_, ?_⟩
    · intro c child
      have part (x : NodeId) (inside : x ∈ c.ids) : x ∈ k.children.flatMap Tree.ids :=
        List.mem_flatMap.mpr ⟨c, child, inside⟩
      have top := inner _ (part _ (Tree.id_mem_ids c))
      refine ⟨?_, (children c child).2.frame ?_ ?_⟩
      · exact (parents _ top.1 top.2).trans (children c child).1
      · exact fun x inside => rows x (inner x (part x inside)).1 (inner x (part x inside)).2
      · exact fun x inside _ => parents x (inner x (part x inside)).1 (inner x (part x inside)).2
    · rw [← Tree.ids_withNote note (.node l k)] at distinct
      exact distinct

namespace Tree

variable {l : Label} {op : AssignOp} {x v : Tree}

theorem ids_assignment : ids (.node l (.assignment op x v)) = l.id :: (x.ids ++ v.ids) := by
  simp [ids_node, Kind.children, Kind.slots, Slot.children]

theorem ids_value : v.ids ⊆ ids (.node l (.assignment op x v)) := by
  rw [ids_assignment]
  exact fun _ inside => List.mem_cons_of_mem _ (List.mem_append_right _ inside)

/-- An assignment, its target and its value have no number in common. -/
structure AssignmentApart (l : Label) (x v : Tree) : Prop where
  target : l.id ∉ x.ids
  value : l.id ∉ v.ids
  targetOnce : x.ids.Nodup
  valueOnce : v.ids.Nodup
  between : ∀ y ∈ x.ids, y ∉ v.ids

theorem nodup_assignment :
    (ids (.node l (.assignment op x v))).Nodup ↔ AssignmentApart l x v := by
  rw [ids_assignment, List.nodup_cons, List.mem_append, not_or, List.nodup_append']
  constructor
  · rintro ⟨⟨target, value⟩, targetOnce, valueOnce, between⟩
    exact ⟨target, value, targetOnce, valueOnce, fun _ inside taken => between inside taken⟩
  · rintro ⟨target, value, targetOnce, valueOnce, between⟩
    exact ⟨⟨target, value⟩, targetOnce, valueOnce, fun y inside taken => between y inside taken⟩

namespace AssignmentApart

variable (apart : AssignmentApart l x v)
include apart

theorem id_ne : l.id ≠ v.id := fun same => apart.value (same ▸ id_mem_ids v)

theorem target_ne : x.id ≠ v.id :=
  fun same => apart.between _ (id_mem_ids x) (same ▸ id_mem_ids v)

end AssignmentApart

end Tree

namespace Edit

open Editing

variable {a : Arena} {t : Tree}

section taking

variable {l : Label} {op : AssignOp} {x v : Tree} (e : Edit)

/- The arena after the value has been taken out of an assignment. -/
def takenArena (a : Arena) (assignment value : NodeId) (kind : Kind NodeId) (note : Annotation) :
    Arena :=
  ((((a.push .empty {}).2.setKind assignment kind).link ⟨a.size⟩ assignment).unlink value).setNote
    value note

/-- What stands where the value was. -/
def filler (a : Arena) : Tree := .node ⟨⟨a.size⟩, {}, .shown⟩ .empty

theorem ids_filler (a : Arena) : (filler a).ids = [⟨a.size⟩] := by
  simp [filler, Tree.ids_node, Kind.children, Kind.slots]

theorem take_run (held : a.Holds (.node l (.assignment op x v))) :
    takeValue e l.id v.id a =
      .ok v.id (takenArena a l.id v.id (.assignment op x.id ⟨a.size⟩)
        ⟨e.variableId, l.note.memberId⟩) := by
  obtain ⟨-, row, children, distinct⟩ := Arena.holds_node.mp held
  obtain ⟨link, value⟩ := children v (by simp [Kind.children, Kind.slots, Slot.children])
  have apart := Tree.nodup_assignment.mp distinct
  have kind : a.kind l.id = .ok (.assignment op x.id v.id) := held.kind
  have removed : remove v.id a = .ok ()
      ((((a.push .empty {}).2.setKind l.id (.assignment op x.id ⟨a.size⟩)).link ⟨a.size⟩
        l.id).unlink v.id) := by
    rw [remove, bind_ok (parentOf_ok _ link kind)]
    simp only [Kind.holder?_right op _ apart.target_ne]
    rw [bind_ok (add_ok _ _)]
    simp only [Kind.replacement_right op _ apart.target_ne, Option.getD_some]
    rfl
  have oldValue := value.index_lt (Tree.id_mem_ids v)
  have present : ((((a.push .empty {}).2.setKind l.id (.assignment op x.id ⟨a.size⟩)).link ⟨a.size⟩
      l.id).unlink v.id).node v.id = .ok v.row := by
    simp [Arena.node, Arena.get?_setKind, apart.id_ne.symm, Arena.get?_push_old oldValue, value.row]
  have noted : a.note l.id = .ok l.note := held.note
  rw [takeValue, bind_ok (query_ok noted), bind_ok removed, bind_ok (query_ok present)]
  rfl

section rows

variable (assignment value : NodeId) (kind : Kind NodeId) (note : Annotation) {y : NodeId}

theorem size_takenArena : (takenArena a assignment value kind note).size = a.size + 1 := by
  simp [takenArena]

theorem get?_takenArena (old : y.index < a.size) (notAssignment : y ≠ assignment)
    (notValue : y ≠ value) :
    (takenArena a assignment value kind note).nodes.get? y = a.nodes.get? y := by
  simp [takenArena, Arena.get?_setNote, Arena.get?_setKind, notAssignment, notValue,
    Arena.get?_push_old old]

theorem parent?_takenArena (old : y.index < a.size) (notValue : y ≠ value) :
    (takenArena a assignment value kind note).parent? y = a.parent? y := by
  have notFiller : ¬ (⟨a.size⟩ : NodeId) = y := by
    rintro rfl
    exact Nat.lt_irrefl _ old
  simp [takenArena, Arena.parent?_unlink, Arena.parent?_link, notValue.symm, notFiller,
    Arena.parent?_push, Kind.children, Kind.slots]

theorem holds_filler (oldAssignment : assignment.index < a.size) (oldValue : value.index < a.size) :
    (takenArena a assignment value kind note).Holds (filler a) ∧
      (takenArena a assignment value kind note).parent? ⟨a.size⟩ = some assignment := by
  have apart (z : NodeId) (old : z.index < a.size) : ¬ (⟨a.size⟩ : NodeId) = z := by
    rintro rfl
    exact Nat.lt_irrefl _ old
  refine ⟨Arena.holds_node.mpr ⟨rfl, ?_, ?_, ?_⟩, ?_⟩
  · simp [takenArena, Arena.get?_setNote, Arena.get?_setKind, apart _ oldAssignment,
      apart _ oldValue, Arena.get?_push, Kind.map]
  · simp [Kind.children, Kind.slots]
  · simp [Tree.ids_node, Kind.children, Kind.slots]
  · have differs : ¬ value = ⟨a.size⟩ := fun same => apart value oldValue same.symm
    simp [takenArena, Arena.parent?_unlink, Arena.parent?_link, differs]

theorem confined_takenArena :
    Arena.Confined [assignment, value] a (takenArena a assignment value kind note) := by
  refine ⟨by simp [size_takenArena], ?_, ?_⟩
  · intro y outside old
    simp only [List.mem_cons, List.not_mem_nil, or_false, not_or] at outside
    exact get?_takenArena _ _ _ _ old outside.1 outside.2
  · intro y outside old
    simp only [List.mem_cons, List.not_mem_nil, or_false, not_or] at outside
    exact parent?_takenArena _ _ _ _ old outside.2

end rows

section parts

variable (held : a.Holds (.node l (.assignment op x v))) (note : Annotation)
include held

theorem holds_taken :
    (takenArena a l.id v.id (.assignment op x.id ⟨a.size⟩) note).Holds
      (.node l (.assignment op x (filler a))) := by
  obtain ⟨shown, row, children, distinct⟩ := Arena.holds_node.mp held
  obtain ⟨link, target⟩ := children x (by simp [Kind.children, Kind.slots, Slot.children])
  have apart := Tree.nodup_assignment.mp distinct
  have old (y : NodeId) (inside : y ∈ Tree.ids (.node l (.assignment op x v))) :=
    held.index_lt inside
  have ownOld : l.id.index < a.size := old _ (Tree.id_mem_ids _)
  have valueOld : v.id.index < a.size := old _ (Tree.ids_value (Tree.id_mem_ids v))
  obtain ⟨filled, filledLink⟩ := holds_filler l.id v.id (.assignment op x.id ⟨a.size⟩) note ownOld
    valueOld
  have elsewhere (y : NodeId) (inside : y ∈ x.ids) : y ∉ [l.id, v.id] := by
    simp only [List.mem_cons, List.not_mem_nil, or_false, not_or]
    exact ⟨fun same => apart.target (same ▸ inside),
      fun same => apart.between y inside (same ▸ Tree.id_mem_ids v)⟩
  have confined := confined_takenArena (a := a) l.id v.id (.assignment op x.id ⟨a.size⟩) note
  refine Arena.holds_node.mpr ⟨shown, ?_, ?_, ?_⟩
  · have top : (filler a).id = ⟨a.size⟩ := rfl
    simp [takenArena, Arena.get?_setNote, Arena.get?_setKind, apart.id_ne,
      Arena.get?_push_old ownOld, row, Kind.map, top]
  · intro d child
    have which : d = x ∨ d = filler a := by
      simpa [Kind.children, Kind.slots, Slot.children] using child
    rcases which with rfl | rfl
    · refine ⟨?_, target.frame_confined confined elsewhere⟩
      rw [confined.parents _ (elsewhere _ (Tree.id_mem_ids d)) (target.index_lt (Tree.id_mem_ids d)), link]
    · exact ⟨filledLink, filled⟩
  · have unknown : ⟨a.size⟩ ∉ Tree.ids (.node l (.assignment op x v)) :=
      fun inside => Nat.lt_irrefl _ (old _ inside)
    rw [Tree.ids_assignment, List.mem_cons, List.mem_append, not_or, not_or] at unknown
    refine Tree.nodup_assignment.mpr ⟨apart.target, ?_, apart.targetOnce, by simp [ids_filler], ?_⟩
    · rw [ids_filler, List.mem_singleton]
      exact fun same => unknown.1 same.symm
    · intro y inside new
      rw [ids_filler, List.mem_singleton] at new
      exact unknown.2.1 (new ▸ inside)

theorem holds_loose :
    (takenArena a l.id v.id (.assignment op x.id ⟨a.size⟩) note).Holds (v.withNote note) := by
  obtain ⟨-, -, children, distinct⟩ := Arena.holds_node.mp held
  obtain ⟨-, value⟩ := children v (by simp [Kind.children, Kind.slots, Slot.children])
  have apart := Tree.nodup_assignment.mp distinct
  have old (y : NodeId) (inside : y ∈ v.ids) := value.index_lt inside
  apply value.withNote
  · simp [takenArena, Arena.get?_setNote, Arena.get?_setKind, apart.id_ne.symm,
      Arena.get?_push_old (old _ (Tree.id_mem_ids v)), value.row, Tree.row]
  · intro y inside differs
    exact get?_takenArena _ _ _ _ (old y inside) (fun same => apart.value (same ▸ inside)) differs
  · exact fun y inside differs => parent?_takenArena _ _ _ _ (old y inside) differs

end parts

theorem take_ok (held : a.Holds t) (member : .node l (.assignment op x v) ∈ t.subterms) :
    ∃ c, takeValue e l.id v.id a = .ok v.id c ∧ c.size = a.size + 1 ∧
      c.Holds (Tree.graft l.id (.assignment op x (filler a)) t) ∧
      c.Holds (v.withNote ⟨e.variableId, l.note.memberId⟩) ∧
      Arena.Confined (Tree.ids (.node l (.assignment op x v))) a c ∧
      ∀ y : NodeId, y.index < a.size → y ≠ v.id → c.parent? y = a.parent? y := by
  have here := held.below member
  have apart := Tree.nodup_assignment.mp here.distinct
  have confined := confined_takenArena (a := a) l.id v.id (.assignment op x.id ⟨a.size⟩)
    ⟨e.variableId, l.note.memberId⟩
  have within : [l.id, v.id] ⊆ Tree.ids (.node l (.assignment op x v)) := by
    simp [Tree.ids_assignment]
  refine ⟨_, take_run e here, size_takenArena _ _ _ _, ?_, holds_loose here _, confined.mono within,
    fun y old differs => parent?_takenArena _ _ _ _ old differs⟩
  apply held.graft member (holds_taken here _) confined fun y _ inside => within inside
  · exact parent?_takenArena _ _ _ _ (here.index_lt (Tree.id_mem_ids _)) apart.id_ne
  · intro y added inside
    have which : y ∈ x.ids ∨ y = ⟨a.size⟩ := by
      simpa [Kind.children, Kind.slots, Slot.children, ids_filler] using added
    rcases which with kept | rfl
    · rw [Tree.ids_assignment]
      exact List.mem_cons_of_mem _ (List.mem_append_left _ kept)
    · exact absurd (held.index_lt inside) (Nat.lt_irrefl _)

end taking

section declaring

variable {l : Label} {σ : Socket} {s : Tree} (markFinal : Bool) (e : Edit)

/- The arena after a declaration with this value has taken the place of an entry. -/
def declaredArena (a : Arena) (p : Patch) (value replaced scope : NodeId) (note : Annotation)
    (kind : Kind NodeId) : Arena :=
  let bound := (a.push (.binding p.edit.name (some value)) {}).2
  let declared := (bound.push (.declaration p.edit.ty [p.binding] p.isFinal) note).2
  ((declared.setKind scope kind).unlink replaced).link p.declaration scope

theorem declare_run (held : a.Holds (.node l (σ.fill s))) {value : NodeId} (note : Annotation)
    (apart : s.id ≠ value) {d : Tree} (named : d.id = ⟨a.size + 1⟩) :
    fold.declare markFinal e value s.id l.id note a =
      .ok true (declaredArena a ⟨e, ⟨a.size + 1⟩, ⟨a.size⟩,
        markFinal && Term.writeCount e.name (.node l (σ.fill s)) == 1⟩ value s.id l.id note
        ((σ.fill d).map Tree.id)) := by
  generalize shown : (markFinal && Term.writeCount e.name (.node l (σ.fill s)) == 1) = isFinal
  obtain ⟨-, row, children, distinct⟩ := Arena.holds_node.mp held
  have listed : s ∈ (σ.fill s).children := σ.mem_children_fill.mpr (.inl rfl)
  have old : s.id.index < a.size := (children s listed).2.index_lt (Tree.id_mem_ids s)
  have oldScope : l.id.index < a.size := Arena.index_lt_of_get? a _ row
  have notBinding : ¬ s.id = ⟨a.size⟩ := by
    intro same
    rw [same] at old
    exact Nat.lt_irrefl _ old
  let bound := (a.push (.binding e.name (some value)) {}).2
  let declared := (bound.push (.declaration e.ty [⟨a.size⟩] isFinal) note).2
  have link : declared.parent? s.id = some l.id := by
    simp [declared, bound, Arena.parent?_push, Kind.children, Kind.slots, Slot.children,
      notBinding, apart, (children s listed).1]
  have rowNow : declared.kind l.id = .ok ((σ.fill s).map Tree.id) := by
    have wider : l.id.index < bound.size := by
      rw [Arena.size_push]
      exact Nat.lt_succ_of_lt oldScope
    rw [Arena.kind, Arena.node, Arena.get?_push_old wider, Arena.get?_push_old oldScope, row]
    rfl
  have once : ((σ.fill s).children.map Tree.id).Nodup := by
    rw [Tree.ids_node] at distinct
    exact distinct.of_cons.sublist (Tree.map_id_sublist _)
  have final : finality markFinal l.id e.name a = .ok isFinal a := by
    rw [← shown]
    exact finality_ok held markFinal e.name
  have replaced : replace s.id ⟨a.size + 1⟩ declared =
      .ok () (((declared.setKind l.id ((σ.fill d).map Tree.id)).unlink s.id).link
        ⟨a.size + 1⟩ l.id) := by
    rw [replace, bind_ok (parentOf_ok _ link rowNow)]
    simp only [← named, σ.replace_fill once]
    rfl
  rw [fold.declare, bind_ok final, bind_ok (add_ok _ _), bind_ok (add_ok _ _), Arena.size_push,
    bind_ok replaced]
  rfl

section rows

variable (p : Patch) (value replaced scope : NodeId) (note : Annotation) (kind : Kind NodeId)
  {y : NodeId}

theorem size_declaredArena :
    (declaredArena a p value replaced scope note kind).size = a.size + 2 := by
  simp [declaredArena]

theorem get?_declaredArena (old : y.index < a.size) :
    (declaredArena a p value replaced scope note kind).nodes.get? y =
      if y = scope then (a.nodes.get? y).map fun n => { n with kind } else a.nodes.get? y := by
  have wider : y.index < (a.push (.binding p.edit.name (some value)) {}).2.size := by
    rw [Arena.size_push]
    exact Nat.lt_succ_of_lt old
  simp only [declaredArena, Arena.get?_link, Arena.get?_unlink, Arena.get?_setKind,
    Arena.get?_push_old wider, Arena.get?_push_old old]

variable {p} (binding : p.binding = ⟨a.size⟩) (declaration : p.declaration = ⟨a.size + 1⟩)

include binding declaration

theorem parent?_declaredArena (old : y.index < a.size) :
    (declaredArena a p value replaced scope note kind).parent? y =
      if replaced = y then none else if y = value then some p.binding else a.parent? y := by
  have notDeclaration : ¬ p.declaration = y := by
    rw [declaration]
    rintro rfl
    simp at old
  have notBinding : ¬ y = ⟨a.size⟩ := by
    rintro rfl
    simp at old
  simp [declaredArena, Arena.parent?_link, Arena.parent?_unlink, Arena.parent?_push,
    Kind.children, Kind.slots, Slot.children, notDeclaration, notBinding, binding]

theorem confined_declaredArena :
    Arena.Confined [scope, replaced, value] a
      (declaredArena a p value replaced scope note kind) := by
  refine ⟨by simp [size_declaredArena], ?_, ?_⟩
  · intro y outside old
    have differs : ¬ y = scope := fun same => outside (by simp [same])
    rw [get?_declaredArena _ _ _ _ _ _ old, if_neg differs]
  · intro y outside old
    have notReplaced : ¬ replaced = y := fun same => outside (by simp [same])
    have notValue : ¬ y = value := fun same => outside (by simp [same])
    rw [parent?_declaredArena _ _ _ _ _ binding declaration old, if_neg notReplaced,
      if_neg notValue]

theorem holds_bound {v : Tree} (held : a.Holds v) (oldScope : scope.index < a.size)
    (scopeApart : scope ∉ v.ids) (replacedApart : replaced ∉ v.ids) :
    (declaredArena a p v.id replaced scope note kind).Holds
      (.node ⟨p.binding, {}, .shown⟩ (.binding p.edit.name (some v))) := by
  have notScope : ¬ (⟨a.size⟩ : NodeId) = scope := by
    rintro rfl
    exact Nat.lt_irrefl _ oldScope
  have notReplaced : ¬ replaced = v.id := fun same => replacedApart (same ▸ Tree.id_mem_ids v)
  refine Arena.holds_node.mpr ⟨rfl, ?_, ?_, ?_⟩
  · simp [declaredArena, Arena.get?_setKind, Arena.get?_push, binding, Kind.map, notScope]
  · intro c child
    obtain rfl : c = v := by simpa [Kind.children, Kind.slots, Slot.children] using child
    refine ⟨?_, ?_⟩
    · rw [parent?_declaredArena _ _ _ _ _ binding declaration (held.index_lt (Tree.id_mem_ids c)),
        if_neg notReplaced, if_pos rfl]
    · apply held.frame
      · intro y inside
        have differs : ¬ y = scope := fun same => scopeApart (same ▸ inside)
        rw [get?_declaredArena _ _ _ _ _ _ (held.index_lt inside), if_neg differs]
      · intro y inside differs
        have other : ¬ replaced = y := fun same => replacedApart (same ▸ inside)
        rw [parent?_declaredArena _ _ _ _ _ binding declaration (held.index_lt inside),
          if_neg other, if_neg differs]
  · rw [Tree.ids_node]
    simp only [Kind.children, Kind.slots, Slot.children, List.flatMap_cons, List.flatMap_nil,
      List.append_nil, Option.toList_some, List.nodup_cons, binding]
    exact ⟨fun inside => Nat.lt_irrefl _ (held.index_lt inside), held.distinct⟩

theorem holds_declared {v : Tree} (held : a.Holds v) (oldScope : scope.index < a.size)
    (oldReplaced : replaced.index < a.size) (scopeApart : scope ∉ v.ids)
    (replacedApart : replaced ∉ v.ids) :
    (declaredArena a p v.id replaced scope note kind).Holds (p.declares note {} (some v)) ∧
      (declaredArena a p v.id replaced scope note kind).parent? p.declaration = some scope := by
  have bound := holds_bound replaced scope note kind binding declaration held oldScope scopeApart
    replacedApart
  have top : Tree.id (.node ⟨p.binding, {}, .shown⟩ (.binding p.edit.name (some v))) =
      p.binding := rfl
  have notScope : ¬ (⟨a.size + 1⟩ : NodeId) = scope := by
    rintro rfl
    exact Nat.not_succ_le_self _ (Nat.le_of_lt oldScope)
  have notReplaced : ¬ replaced = (⟨a.size⟩ : NodeId) := by
    rintro rfl
    exact Nat.lt_irrefl _ oldReplaced
  refine ⟨Arena.holds_node.mpr ⟨rfl, ?_, ?_, ?_⟩, by simp [declaredArena, Arena.parent?_link]⟩
  · simp [declaredArena, Arena.get?_setKind, Arena.get?_push, declaration, Kind.map, top, notScope]
  · intro c child
    obtain rfl : c = .node ⟨p.binding, {}, .shown⟩ (.binding p.edit.name (some v)) := by
      simpa [Kind.children, Kind.slots, Slot.children] using child
    refine ⟨?_, bound⟩
    rw [top]
    simp [declaredArena, Arena.parent?_link, Arena.parent?_unlink, Arena.parent?_push,
      Kind.children, Kind.slots, Slot.children, binding, declaration, notReplaced]
  · have listed := p.ids_declares note {} (some v)
    rw [Patch.declares] at listed
    have once := bound.distinct
    simp only [Tree.ids_node, Kind.children, Kind.slots, Slot.children, List.flatMap_cons,
      List.flatMap_nil, List.append_nil, Option.toList_some] at once
    rw [listed, Option.toList_some, List.flatMap_singleton, List.nodup_cons, List.mem_cons, not_or]
    refine ⟨⟨by simp [binding, declaration], fun inside => ?_⟩, once⟩
    have known := held.index_lt inside
    rw [declaration] at known
    exact Nat.not_succ_le_self _ (Nat.le_of_lt known)

end rows

theorem not_mem_of_declares {u v : Tree} {p : Patch} (held : a.Holds u)
    (loose : ∀ y ∈ v.ids, y ∉ u.ids) (note : Annotation) (binding : p.binding = ⟨a.size⟩)
    (declaration : p.declaration = ⟨a.size + 1⟩) {y : NodeId}
    (inside : y ∈ (p.declares note {} (some v)).ids) : y ∉ u.ids := by
  intro known
  have old := held.index_lt known
  rw [p.ids_declares, List.mem_cons, List.mem_cons, Option.toList_some,
    List.flatMap_singleton] at inside
  rcases inside with rfl | rfl | inside
  · simp [declaration] at old
  · simp [binding] at old
  · exact loose y inside known

theorem holds_filled {v : Tree} {p : Patch} (held : a.Holds (.node l (σ.fill s))) (value : a.Holds v)
    (loose : ∀ y ∈ v.ids, y ∉ Tree.ids (.node l (σ.fill s))) (note : Annotation)
    (binding : p.binding = ⟨a.size⟩) (declaration : p.declaration = ⟨a.size + 1⟩) :
    (declaredArena a p v.id s.id l.id note ((σ.fill (p.declares note {} (some v))).map Tree.id)).Holds
      (.node l (σ.fill (p.declares note {} (some v)))) := by
  obtain ⟨shown, row, children, distinct⟩ := Arena.holds_node.mp held
  have apart := σ.nodup_fill.mp distinct
  have ownIn : l.id ∈ Tree.ids (.node l (σ.fill s)) := Tree.id_mem_ids _
  have entryIn := σ.ids_entry l s (Tree.id_mem_ids s)
  obtain ⟨new, link⟩ := holds_declared s.id l.id note
    ((σ.fill (p.declares note {} (some v))).map Tree.id) binding declaration value
    (held.index_lt ownIn) (held.index_lt entryIn) (fun inside => loose _ inside ownIn)
    (fun inside => loose _ inside entryIn)
  have confined := confined_declaredArena (a := a) v.id s.id l.id note
    ((σ.fill (p.declares note {} (some v))).map Tree.id) binding declaration
  refine Arena.holds_node.mpr ⟨shown, ?_, ?_, ?_⟩
  · rw [get?_declaredArena _ _ _ _ _ _ (held.index_lt ownIn), if_pos rfl, row]
    rfl
  · intro c child
    rcases σ.mem_children_fill.mp child with rfl | other
    · exact ⟨link, new⟩
    · obtain ⟨parent, heldOther⟩ := children c (σ.mem_children_fill.mpr (.inr other))
      have elsewhere (y : NodeId) (inside : y ∈ c.ids) : y ∉ [l.id, s.id, v.id] := by
        have among : y ∈ σ.others.flatMap Tree.ids := List.mem_flatMap.mpr ⟨c, other, inside⟩
        simp only [List.mem_cons, List.not_mem_nil, or_false, not_or]
        refine ⟨fun same => apart.holderOthers (same ▸ among),
          fun same => apart.between _ (Tree.id_mem_ids s) (same ▸ among), ?_⟩
        exact fun same => loose _ (Tree.id_mem_ids v) (same ▸ σ.ids_others l s among)
      have top := Tree.id_mem_ids c
      refine ⟨?_, heldOther.frame_confined confined elsewhere⟩
      exact (confined.parents _ (elsewhere _ top) (heldOther.index_lt top)).trans parent
  · have unknown {y : NodeId} := not_mem_of_declares (y := y) held loose note binding declaration
    exact σ.nodup_fill.mpr ⟨fun inside => unknown inside ownIn, apart.holderOthers, new.distinct,
      apart.others, fun y inside among => unknown inside (σ.ids_others l s among)⟩

theorem declare_ok {v : Tree} (held : a.Holds t) (member : .node l (σ.fill s) ∈ t.subterms)
    (value : a.Holds v) (loose : ∀ y ∈ v.ids, y ∉ t.ids) (note : Annotation) :
    ∃ p b, fold.declare markFinal e v.id s.id l.id note a = .ok true b ∧ p.edit = e ∧
      p.isFinal = (markFinal && Term.writeCount e.name (.node l (σ.fill s)) == 1) ∧
      (∀ y ∈ Tree.added [p], a.size ≤ y.index) ∧
      b.Holds (Tree.graft l.id (σ.fill (p.declares note {} (some v))) t) ∧ a.size ≤ b.size ∧
      (∀ y : NodeId, y.index < a.size → y ≠ l.id → b.nodes.get? y = a.nodes.get? y) ∧
      ∀ y : NodeId, y.index < a.size → b.parent? y =
        if s.id = y then none else if y = v.id then some p.binding else a.parent? y := by
  have here := held.below member
  have inTree := Tree.ids_subset member
  have apart := σ.nodup_fill.mp here.distinct
  have ownIn : l.id ∈ Tree.ids (.node l (σ.fill s)) := Tree.id_mem_ids _
  have entryIn := σ.ids_entry l s (Tree.id_mem_ids s)
  have valueOut : v.id ∉ t.ids := loose _ (Tree.id_mem_ids v)
  have notEntry : ¬ s.id = v.id := fun same => valueOut (same ▸ inTree entryIn)
  let p : Patch := ⟨e, ⟨a.size + 1⟩, ⟨a.size⟩,
    markFinal && Term.writeCount e.name (.node l (σ.fill s)) == 1⟩
  let kind := (σ.fill (p.declares note {} (some v))).map Tree.id
  have parents (y : NodeId) (old : y.index < a.size) :
      (declaredArena a p v.id s.id l.id note kind).parent? y =
        if s.id = y then none else if y = v.id then some p.binding else a.parent? y :=
    parent?_declaredArena _ _ _ _ _ rfl rfl old
  have confined : Arena.Confined [l.id, s.id, v.id] a (declaredArena a p v.id s.id l.id note kind) :=
    confined_declaredArena _ _ _ _ _ rfl rfl
  refine ⟨p, _, declare_run markFinal e here note notEntry rfl, rfl, rfl, by simp [Tree.added, p], ?_,
    confined.grows, fun y old differs => ?_, parents⟩
  · have filled := holds_filled here value (fun y inside known => loose y inside (inTree known)) note
      (p := p) rfl rfl
    apply held.graft member filled confined
    · intro y listed changed
      simp only [List.mem_cons, List.not_mem_nil, or_false] at changed
      rcases changed with rfl | rfl | rfl
      · exact ownIn
      · exact entryIn
      · exact absurd listed valueOut
    · have notHolder : ¬ s.id = l.id := fun same => apart.holder (same ▸ Tree.id_mem_ids s)
      have notValue : ¬ l.id = v.id := fun same => valueOut (same ▸ inTree ownIn)
      exact (parents l.id (here.index_lt ownIn)).trans (by rw [if_neg notHolder, if_neg notValue]; rfl)
    · intro y inside listed
      rw [((σ.children_fill _).flatMap_right _).mem_iff, List.flatMap_cons, List.mem_append] at inside
      rcases inside with new | other
      · exact absurd listed (not_mem_of_declares (p := p) held loose note rfl rfl new)
      · exact σ.ids_others l s other
  · rw [get?_declaredArena _ _ _ _ _ _ old, if_neg differs]

end declaring
end Edit

end LocalScope
