import LocalScope.Proofs.Declaring
import LocalScope.Proofs.Writes

namespace LocalScope

namespace Edit

open Editing

variable {a : Arena} {t : Tree}

/-- An assignment that has been folded: it is no longer in the tree, and neither is the statement that
was around it. -/
structure Spent (a : Arena) (t : Tree) (assignment : NodeId) : Prop where
  kind : ∃ op left right, a.kind assignment = .ok (.assignment op left right)
  gone : assignment ∉ t.ids
  loose : a.parent? assignment = none ∨
    ∃ s e, s ∉ t.ids ∧ a.parent? assignment = some s ∧ a.kind s = .ok (.expressionStatement e) ∧
      a.parent? s = none

section folding

variable {l la : Label} {σ : Socket} {s : Tree} {op : AssignOp} {x v : Tree} (markFinal : Bool)
  (e : Edit)

theorem not_mem_ids_taken (held : a.Holds t) (member : .node la (.assignment op x v) ∈ t.subterms)
    {y : NodeId} (inside : y ∈ v.ids) :
    y ∉ (Tree.graft la.id (.assignment op x (filler a)) t).ids := by
  have here := held.below member
  have apart := Tree.nodup_assignment.mp here.distinct
  intro kept
  rcases (Tree.mem_ids_graft_iff held.distinct member).mp kept with ⟨-, out⟩ | rfl | new
  · exact out (Tree.ids_value inside)
  · exact apart.value inside
  · have which : y ∈ x.ids ∨ y = ⟨a.size⟩ := by
      simpa [Kind.children, Kind.slots, Slot.children, ids_filler] using new
    rcases which with target | rfl
    · exact apart.between y target inside
    · exact Nat.lt_irrefl _ (here.index_lt (Tree.ids_value inside))

theorem mem_ids_refilled {p : Patch} {note : Annotation} {memberId : Option MemberId}
    (fresh : ∀ y ∈ Tree.added [p], a.size ≤ y.index) {y : NodeId}
    (inside : y ∈ (σ.fill (p.folded note memberId v)).children.flatMap Tree.ids) :
    (a.size ≤ y.index ∨ y ∈ v.ids) ∨ y ∈ σ.others.flatMap Tree.ids := by
  rw [((σ.children_fill _).flatMap_right _).mem_iff, List.flatMap_cons, List.mem_append,
    Patch.ids_folded, List.mem_cons, List.mem_cons] at inside
  rcases inside with (rfl | rfl | value) | among
  · exact .inl (.inl (fresh _ (by simp [Tree.added])))
  · exact .inl (.inl (fresh _ (by simp [Tree.added])))
  · exact .inl (.inr value)
  · exact .inr among

/- Both steps together. The entry is the assignment or has it below. -/
theorem transfer_run (held : a.Holds t) (member : .node l (σ.fill s) ∈ t.subterms)
    (inside : .node la (.assignment op x v) ∈ s.subterms) (note : Annotation) :
    ∃ p b c, takeValue e la.id v.id a = .ok v.id c ∧
      (s.id ∉ Tree.ids (.node la (.assignment op x v)) → c.note s.id = a.note s.id) ∧
      fold.declare markFinal e v.id s.id l.id note c = .ok true b ∧ p.edit = e ∧
      p.isFinal = (markFinal && Term.writeCount e.name
        (.node l (σ.fill (Tree.graft la.id (.assignment op x (filler a)) s))) == 1) ∧
      (∀ y ∈ Tree.added [p], a.size ≤ y.index) ∧
      b.Holds (Tree.graft l.id (σ.fill (p.folded note la.note.memberId v)) t) ∧
      (∃ filler, b.kind la.id = .ok (.assignment op x.id filler)) ∧ a.size ≤ b.size ∧
      (∀ y : NodeId, y.index < a.size → y ≠ l.id →
        y ∉ Tree.ids (.node la (.assignment op x v)) → b.nodes.get? y = a.nodes.get? y) ∧
      ∀ y : NodeId, y.index < a.size → y ≠ v.id → b.parent? y =
        if s.id = y then none else a.parent? y := by
  have apart := σ.nodup_fill.mp (held.below member).distinct
  have below : .node la (.assignment op x v) ∈ (Term.node l (σ.fill s)).subterms :=
    Term.mem_subterms_of_child (σ.mem_children_fill.mpr (.inl rfl)) inside
  have inTree := Term.subterms_trans below member
  have ownId : la.id ∈ s.ids := Tree.ids_subset inside (Tree.id_mem_ids _)
  have notScope : la.id ≠ l.id := fun same => apart.holder (same ▸ ownId)
  have old {y : NodeId} (known : y ∈ s.ids) : y.index < a.size :=
    (held.below member).index_lt (σ.ids_entry l s known)
  obtain ⟨c, taken, size, holdsRest, holdsValue, confined, parents⟩ := take_ok e held inTree
  have wider {y : NodeId} (known : y.index < a.size) : y.index < c.size := by omega
  -- The holder after the value has been taken out.
  let s' := Tree.graft la.id (.assignment op x (filler a)) s
  have member' : .node l (σ.fill s') ∈
      (Tree.graft la.id (.assignment op x (filler a)) t).subterms := by
    rw [← σ.graft_fill apart ownId]
    exact Tree.graft_mem_subterms held.distinct member (σ.ids_entry l s ownId)
  have loose (y : NodeId) (value : y ∈ (v.withNote ⟨e.variableId, la.note.memberId⟩).ids) :
      y ∉ (Tree.graft la.id (.assignment op x (filler a)) t).ids := by
    rw [Tree.ids_withNote] at value
    exact not_mem_ids_taken held inTree value
  obtain ⟨p, b, declared, edit, mark, fresh, holds, grows, rows, parents'⟩ :=
    declare_ok markFinal e holdsRest member' holdsValue loose note
  have named : s'.id = s.id := Tree.id_graft s
  rw [named] at declared parents'
  refine ⟨p, b, c, taken, fun outside => ?_, declared, edit, mark, fun y added => ?_, ?_,
    ⟨(filler a).id, ?_⟩, by omega, fun y known first second => ?_, fun y known differs => ?_⟩
  · rw [Arena.note, Arena.note, Arena.node, Arena.node,
      confined.rows _ outside (old (Tree.id_mem_ids s))]
  · have := fresh y added
    omega
  · have collapse : Tree.graft l.id (σ.fill (p.folded note la.note.memberId v))
        (Tree.graft la.id (.assignment op x (filler a)) t) =
        Tree.graft l.id (σ.fill (p.folded note la.note.memberId v)) t :=
      Tree.graft_graft held.distinct member below notScope
    rw [← collapse, Patch.folded, edit]
    exact holds
  · have mid : .node la (.assignment op x (filler a)) ∈
        (Tree.graft la.id (.assignment op x (filler a)) t).subterms := by
      rw [← Tree.graft_self la (.assignment op x v)]
      exact Tree.graft_mem_subterms held.distinct inTree (Tree.id_mem_ids _)
    rw [Arena.kind, Arena.node, rows la.id (wider (old ownId)) notScope]
    exact (holdsRest.below mid).kind
  · exact (rows y (wider known) first).trans (confined.rows y second known)
  · have notValue : ¬ y = (v.withNote ⟨e.variableId, la.note.memberId⟩).id := differs
    rw [parents' y (wider known), parents y known differs, if_neg notValue]

theorem not_mem_ids_transfer (held : a.Holds t) (member : .node l (σ.fill s) ∈ t.subterms)
    (note : Annotation) (memberId : Option MemberId) {p : Patch}
    (fresh : ∀ y ∈ Tree.added [p], a.size ≤ y.index) {y : NodeId} (listed : y ∈ s.ids)
    (other : y ∉ v.ids) : y ∉ Tree.ids (Tree.graft l.id (σ.fill (p.folded note memberId v)) t) := by
  have here := held.below member
  have apart := σ.nodup_fill.mp here.distinct
  intro kept
  rcases (Tree.mem_ids_graft_iff held.distinct member).mp kept with ⟨-, out⟩ | rfl | new
  · exact out (σ.ids_entry l s listed)
  · exact apart.holder listed
  · rcases mem_ids_refilled fresh new with (late | value) | among
    · exact absurd (here.index_lt (σ.ids_entry l s listed)) (Nat.not_lt.mpr late)
    · exact other value
    · exact apart.between y listed among

theorem carried_transfer {b : Arena} {p : Patch} {note : Annotation} {memberId : Option MemberId}
    (member : .node l (σ.fill s) ∈ t.subterms)
    (inside : .node la (.assignment op x v) ∈ s.subterms)
    (fresh : ∀ y ∈ Tree.added [p], a.size ≤ y.index)
    (holds : b.Holds (Tree.graft l.id (σ.fill (p.folded note memberId v)) t))
    (grows : a.size ≤ b.size)
    (rows : ∀ y : NodeId, y.index < a.size → y ≠ l.id →
      y ∉ Tree.ids (.node la (.assignment op x v)) → b.nodes.get? y = a.nodes.get? y)
    (links : ∀ y : NodeId, y.index < a.size → y ≠ v.id → b.parent? y =
      if s.id = y then none else a.parent? y) :
    Arena.Carried t (Tree.graft l.id (σ.fill (p.folded note memberId v)) t) a b := by
  have whole := Tree.ids_subset member
  have ofEntry : s.ids ⊆ t.ids := fun y listed => whole (σ.ids_entry l s listed)
  have inEntry := Tree.ids_subset inside
  have ofValue : v.ids ⊆ t.ids := fun y value => ofEntry (inEntry (Tree.ids_value value))
  refine ⟨holds, ⟨grows, fun y outside old => ?_, fun y outside old => ?_⟩, fun y kept => ?_⟩
  · exact rows y old (fun same => outside (same ▸ whole (Tree.id_mem_ids _)))
      fun within => outside (ofEntry (inEntry within))
  · have notValue : y ≠ v.id := fun same => outside (same ▸ ofValue (Tree.id_mem_ids v))
    have notEntry : ¬ s.id = y := fun same => outside (same ▸ ofEntry (Tree.id_mem_ids s))
    rw [links y old notValue, if_neg notEntry]
  · rcases Tree.mem_ids_graft kept with old | ⟨-, new⟩
    · exact .inl old
    · rcases mem_ids_refilled fresh new with (late | value) | among
      · exact .inr late
      · exact .inl (ofValue value)
      · exact .inl (whole (σ.ids_others l s among))

theorem statement_around {r : Tree} (held : a.Holds s) (around : s.kind = .expressionStatement r) :
    a.parent? r.id = some s.id ∧ a.kind s.id = .ok (.expressionStatement r.id) ∧ s.id ∉ r.ids := by
  have child : r ∈ s.children := by
    simp [Term.children, around, Kind.children, Kind.slots, Slot.children]
  refine ⟨held.links s (Term.self_mem_subterms s) r child, ?_, ?_⟩
  · rw [held.kind, around]
    rfl
  · intro listed
    obtain ⟨q, deep, same⟩ := Tree.mem_ids.mp listed
    have equal := held.eq_of_id (Term.subterms_trans deep (Term.child_mem_subterms child))
      (Term.self_mem_subterms s) same
    have less := Term.size_lt_of_mem_children child
    have bound := Term.size_le_of_mem_subterms deep
    rw [equal] at bound
    omega

theorem fold_run {b c : Arena} (held : a.Holds t) (member : .node l (σ.fill s) ∈ t.subterms)
    (found : s.assignment? = some (.node la (.assignment op x v)))
    (taken : takeValue e la.id v.id a = .ok v.id c)
    (noted : s.id ∉ Tree.ids (.node la (.assignment op x v)) → c.note s.id = a.note s.id)
    (declared : fold.declare markFinal e v.id s.id l.id s.keptNote c = .ok true b) :
    fold markFinal e la.id a = .ok true b := by
  have entry : s ∈ (σ.fill s).children := σ.mem_children_fill.mpr (.inl rfl)
  have heldEntry := held.below (Term.subterms_trans (Term.child_mem_subterms entry) member)
  have known : (get : Editing Arena) a = .ok a a := rfl
  have top : a.kind la.id = .ok (.assignment op x.id v.id) :=
    (heldEntry.below (Term.assignment?_mem_subterms found)).kind
  have scope : a.parent? s.id = some l.id := held.links _ member s entry
  rw [fold, bind_ok (query_ok top)]
  simp only
  rw [bind_ok known]
  obtain ⟨-, rfl | around⟩ := Term.assignment?_cases found
  · have scopeKind : a.kind l.id = .ok ((σ.fill _).map Tree.id) := (held.below member).kind
    have name : Tree.id (.node la (.assignment op x v)) = la.id := rfl
    rw [name] at scope
    simp only [scope]
    rw [bind_ok (query_ok scopeKind)]
    cases σ <;>
    · simp only [Socket.fill, Kind.map]
      rw [bind_ok taken]
      exact declared
  · obtain ⟨parent, kind, outside⟩ := statement_around heldEntry around
    have noteNow : c.note s.id = .ok s.keptNote := by
      rw [noted outside, heldEntry.note, Tree.keptNote, around]
    have name : Tree.id (.node la (.assignment op x v)) = la.id := rfl
    rw [name] at parent
    simp only [parent]
    rw [bind_ok (query_ok kind)]
    simp only
    rw [bind_ok known]
    simp only [scope]
    rw [bind_ok taken, bind_ok (query_ok noteNow)]
    exact declared

theorem writeCount_taken (held : a.Holds s) (found : s.assignment? = some (.node la (.assignment op x v)))
    (name : String) :
    s.writeCount name =
      (Tree.graft la.id (.assignment op x (filler a)) s).writeCount name + v.writeCount name := by
  have filled : (filler a).writeCount name = 0 := by
    simp [filler, Term.writeCount_node, Term.writes, Term.kind, Kind.children, Kind.slots]
  have same (y : Tree) : Term.writes name (.node la (.assignment op x y)) = x.isIdentifier name := rfl
  have count (y : Tree) : Term.writeCount name (.node la (.assignment op x y)) =
      x.writeCount name + y.writeCount name + if x.isIdentifier name = true then 1 else 0 := by
    simp [Term.writeCount_node name la, same, Kind.children, Kind.slots, Slot.children]
  obtain ⟨-, rfl | around⟩ := Term.assignment?_cases found
  · rw [Tree.graft_self, count, count, filled]
    omega
  · obtain ⟨-, -, outside⟩ := statement_around held around
    obtain ⟨ls, ks⟩ := s
    rw [Term.kind] at around
    subst around
    have differs : ¬ ls.id = la.id := by
      intro same
      have outside : ls.id ∉ Tree.ids (.node la (.assignment op x v)) := outside
      rw [same] at outside
      exact outside (Tree.id_mem_ids _)
    have outer (r : Tree) : Term.writeCount name (.node ls (.expressionStatement r)) =
        r.writeCount name := by
      simp [Term.writeCount_node name ls, Term.writes, Term.kind, Kind.children, Kind.slots,
        Slot.children]
    rw [Tree.graft_node, if_neg differs, Kind.map, Tree.graft_self, outer, outer, count, count, filled]
    omega

theorem fold_ok {r : Tree} (held : a.Holds t) (member : .node l (σ.fill s) ∈ t.subterms)
    (found : s.assignment? = some r) (shape : r.kind = .assignment op x v) :
    ∃ p b, fold markFinal e r.id a = .ok true b ∧ p.edit = e ∧
      p.isFinal = (markFinal &&
        Term.writeCount e.name (.node l (σ.fill s)) == v.writeCount e.name + 1) ∧
      (∀ y ∈ Tree.added [p], a.size ≤ y.index) ∧
      Arena.Carried t
        (Tree.graft l.id (σ.fill (p.folded s.keptNote r.label.note.memberId v)) t) a b ∧
      Spent b (Tree.graft l.id (σ.fill (p.folded s.keptNote r.label.note.memberId v)) t) r.id := by
  cases r with
  | node la k =>
    rw [Term.kind] at shape
    subst shape
    have entry : s ∈ (σ.fill s).children := σ.mem_children_fill.mpr (.inl rfl)
    have inside := Term.assignment?_mem_subterms found
    have heldEntry := held.below (Term.subterms_trans (Term.child_mem_subterms entry) member)
    obtain ⟨p, b, c, taken, noted, declared, edit, mark, fresh, holds, ⟨filler, kind⟩, grows, rows,
      links⟩ := transfer_run markFinal e held member inside s.keptNote
    have carried := carried_transfer member inside fresh holds grows rows links
    have gone {y : NodeId} (listed : y ∈ s.ids) (other : y ∉ v.ids) :=
      not_mem_ids_transfer held member s.keptNote la.note.memberId fresh listed other
    have counted : p.isFinal = (markFinal &&
        Term.writeCount e.name (.node l (σ.fill s)) == v.writeCount e.name + 1) := by
      rw [mark, Socket.writeCount_fill, Socket.writeCount_fill, writeCount_taken heldEntry found]
      congr 1
      rw [Bool.eq_iff_iff, beq_iff_eq, beq_iff_eq]
      omega
    have apart := Tree.nodup_assignment.mp (heldEntry.below inside).distinct
    have own : la.id ∈ Tree.ids (.node la (.assignment op x v)) := Tree.id_mem_ids _
    have link := links la.id (heldEntry.index_lt (Tree.ids_subset inside own)) apart.id_ne
    refine ⟨p, b, fold_run markFinal e held member found taken noted declared, edit, counted, fresh,
      carried, ⟨op, x.id, filler, kind⟩, gone (Tree.ids_subset inside own) apart.value, ?_⟩
    have old := heldEntry.index_lt (Tree.id_mem_ids s)
    obtain ⟨-, rfl | around⟩ := Term.assignment?_cases found
    · exact .inl (link.trans (if_pos rfl))
    · obtain ⟨parent, kindEntry, outside⟩ := statement_around heldEntry around
      have scopeApart : s.id ≠ l.id := fun same =>
        (σ.nodup_fill.mp (held.below member).distinct).holder (same ▸ Tree.id_mem_ids s)
      have notOwn : ¬ s.id = la.id := fun same => outside (same ▸ own)
      have notValue : s.id ∉ v.ids := fun within => outside (Tree.ids_value within)
      refine .inr ⟨s.id, la.id, gone (Tree.id_mem_ids s) notValue, ?_, ?_, ?_⟩
      · exact link.trans ((if_neg notOwn).trans parent)
      · rw [Arena.kind, Arena.node, rows s.id old scopeApart outside]
        exact kindEntry
      · rw [links s.id old fun same => notValue (same ▸ Tree.id_mem_ids v), if_pos rfl]

theorem fold_spent {assignment : NodeId} (spent : Spent a t assignment) :
    fold markFinal e assignment a = .ok false a := by
  obtain ⟨op, left, right, top⟩ := spent.kind
  have known : (get : Editing Arena) a = .ok a a := rfl
  rw [fold, bind_ok (query_ok top)]
  simp only
  rw [bind_ok known]
  rcases spent.loose with parent | ⟨s, inner, -, parent, kind, grandparent⟩
  · simp only [parent]
    rfl
  · simp only [parent]
    rw [bind_ok (query_ok kind)]
    simp only
    rw [bind_ok known]
    simp only [grandparent]
    rfl

theorem Spent.carry {b : Arena} {t' : Tree} {assignment : NodeId} (spent : Spent a t assignment)
    (carried : Arena.Carried t t' a b) : Spent b t' assignment := by
  have known {y : NodeId} {k : Kind NodeId} (kind : a.kind y = .ok k) : y.index < a.size := by
    simp only [Arena.kind, Arena.node] at kind
    cases row : a.nodes.get? y with
    | none => simp [row, bind, Except.bind] at kind
    | some n => exact Arena.index_lt_of_get? a y row
  have still {y : NodeId} {k : Kind NodeId} (kind : a.kind y = .ok k) (gone : y ∉ t.ids) :
      b.kind y = .ok k ∧ b.parent? y = a.parent? y ∧ y ∉ t'.ids := by
    refine ⟨?_, carried.confined.parents y gone (known kind), fun inside => ?_⟩
    · rw [Arena.kind, Arena.node, carried.confined.rows y gone (known kind)]
      exact kind
    · rcases carried.fresh y inside with old | new
      · exact gone old
      · exact absurd (known kind) (Nat.not_lt.mpr new)
  obtain ⟨op, left, right, top⟩ := spent.kind
  obtain ⟨kind, parent, gone⟩ := still top spent.gone
  refine ⟨⟨op, left, right, kind⟩, gone, ?_⟩
  rcases spent.loose with none | ⟨s, e, out, link, shape, above⟩
  · exact .inl (parent.trans none)
  · obtain ⟨kind', parent', gone'⟩ := still shape out
    exact .inr ⟨s, e, gone', parent.trans link, kind', parent'.trans above⟩

end folding

end Edit

end LocalScope
