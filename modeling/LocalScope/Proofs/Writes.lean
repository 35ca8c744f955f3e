import LocalScope.Proofs.Sockets

namespace LocalScope

namespace Term

variable {ℓ : Type} (name : String)

theorem writeCount_node (l : ℓ) (k : Kind (Term ℓ)) :
    (node l k).writeCount name =
      (k.children.map (writeCount name)).sum + if (node l k).writes name = true then 1 else 0 := by
  rw [writeCount, subterms_node, List.countP_cons, List.countP_flatMap]
  rfl

theorem writeCount_block (l : ℓ) (ss : List (Term ℓ)) :
    (node l (.block ss)).writeCount name = (ss.map (writeCount name)).sum := by
  rw [writeCount_node, Kind.children_block]
  rfl

theorem writeCount_eq_zero {t : Term ℓ} :
    t.writeCount name = 0 ↔ ∀ w ∈ t.subterms, w.writes name = false := by
  simp [writeCount, List.countP_eq_zero]

end Term

namespace Tree

variable {ps qs : List Patch} {t : Tree} (name : String)

@[simp] theorem writeCount_withNote (note : Annotation) (t : Tree) :
    (t.withNote note).writeCount name = t.writeCount name := by
  obtain ⟨l, k⟩ := t
  rw [withNote, Term.writeCount_node, Term.writeCount_node]
  rfl

theorem writeCount_inserted (p : Patch) : p.inserted.writeCount name = 0 := by
  simp [Patch.inserted, Patch.declares, Term.writeCount_node, Term.writes, Term.kind, Kind.children,
    Kind.slots, Slot.children]

theorem writeCount_insertions (ps : List Patch) (x : NodeId) :
    ((insertions ps x).map (Term.writeCount name)).sum = 0 := by
  apply List.sum_eq_zero
  rw [insertions, List.map_map, List.forall_mem_map]
  exact fun p _ => writeCount_inserted name p

theorem writeCount_rebuildAll (ps : List Patch) (ss : List Tree) :
    ((rebuildAll ps ss).map (Term.writeCount name)).sum =
      (ss.map fun s => (rebuild ps s).writeCount name).sum := by
  induction ss with
  | nil => rfl
  | cons s ss ih =>
    rw [rebuildAll_cons, List.map_append, List.sum_append, writeCount_insertions, Nat.zero_add,
      List.map_cons, List.sum_cons, ih, List.map_cons, List.sum_cons]

theorem writeCount_folded (p : Patch) (note : Annotation) (memberId : Option MemberId) (value : Tree) :
    (p.folded note memberId value).writeCount name = value.writeCount name := by
  simp [Patch.folded, Patch.declares, Term.writeCount_node, Term.writes, Term.kind, Kind.children,
    Kind.slots, Slot.children]

theorem isIdentifier_rebuild (ps : List Patch) (t : Tree) :
    (rebuild ps t).isIdentifier name = t.isIdentifier name := by
  obtain ⟨l, k⟩ := t
  rcases rebuild_cases ps l k with ⟨ss, rfl, made⟩ | ⟨-, -, made⟩ | ⟨p, r, op, x, v, found, -, -, made⟩
  · rw [made]
    rfl
  · rw [made]
    cases k <;> rfl
  · rw [made]
    cases k <;> first | rfl | cases found

theorem writes_map_rebuild (ps : List Patch) (l : Label) (k : Kind Tree) :
    Term.writes name (.node l (k.map (rebuild ps))) = Term.writes name (.node l k) := by
  cases k with
  | assignment op x v => exact isIdentifier_rebuild name ps x
  | unary op x => exact congrArg (op.isIncrement && ·) (isIdentifier_rebuild name ps x)
  | _ => rfl

theorem countP_folded {r x v : Tree} {op : AssignOp} {p : Patch} (found : t.assignment? = some r)
    (shape : r.kind = .assignment op x v) (folded : folding? ps r.id = some p) {left : String}
    (target : x.kind = .identifier left) :
    (t.subterms.countP fun w => w.writes name && (foldedBy? ps w).isNone) =
      v.subterms.countP fun w => w.writes name && (foldedBy? ps w).isNone := by
  obtain ⟨lr, kr⟩ := r
  obtain ⟨lx, kx⟩ := x
  rw [Term.kind] at shape target
  subst shape target
  have gone : foldedBy? ps (.node lr (.assignment op (.node lx (.identifier left)) v)) = some p := folded
  have inner : ((Term.node lr (.assignment op (.node lx (.identifier left)) v)).subterms.countP
      fun w => w.writes name && (foldedBy? ps w).isNone) =
      v.subterms.countP fun w => w.writes name && (foldedBy? ps w).isNone := by
    rw [Term.subterms_node, List.countP_cons_of_neg (by simp [gone])]
    simp [Kind.children, Kind.slots, Slot.children, Term.subterms_node, Term.writes, Term.kind]
  obtain ⟨-, rfl | around⟩ := Term.assignment?_cases found
  · exact inner
  · obtain ⟨lt, kt⟩ := t
    rw [Term.kind] at around
    subst around
    rw [Term.subterms_node, List.countP_cons_of_neg (by simp [Term.writes, Term.kind])]
    simpa [Kind.children, Kind.slots, Slot.children] using inner

/-- A rebuilt tree has the writes of the tree that were not folded. -/
theorem writeCount_rebuild (folds : FoldsVariables ps t) :
    (rebuild ps t).writeCount name =
      t.subterms.countP fun w => w.writes name && (foldedBy? ps w).isNone := by
  induction t using Term.inductSmaller with
  | step t smaller =>
    obtain ⟨l, k⟩ := t
    have child (c : Tree) (child : c ∈ k.children) := smaller c
      (Term.size_lt_of_mem_children (t := .node l k) child)
      (folds.below (Term.child_mem_subterms (t := .node l k) child))
    rcases rebuild_cases ps l k with ⟨ss, rfl, made⟩ | ⟨-, unfolded, made⟩ |
      ⟨p, r, op, x, v, found, shape, folded, made⟩
    · have each (s : Tree) (listed : s ∈ ss) := child s (by simpa using listed)
      have still : Term.writes name (Term.node l (.block ss)) = false := rfl
      rw [made, Term.writeCount_block, writeCount_rebuildAll, List.map_congr_left each,
        Term.subterms_node, List.countP_cons_of_neg (by simp [still]), List.countP_flatMap,
        Kind.children_block]
      rfl
    · rw [made, Term.writeCount_node, writes_map_rebuild, Kind.children_map, List.map_map,
        Term.subterms_node, List.countP_cons, List.countP_flatMap, unfolded]
      simp only [Option.isNone_none, Bool.and_true]
      congr 2
      exact List.map_congr_left child
    · have member := Term.assignment?_mem_subterms found
      obtain ⟨left, target⟩ : ∃ left, x.kind = .identifier left := by
        obtain ⟨lr, kr⟩ := r
        rw [Term.kind] at shape
        subst shape
        exact folds lr op x v member (Option.isSome_of_eq_some folded)
      rw [made, writeCount_folded, countP_folded name found shape folded target]
      exact smaller v (size_value_lt found shape) (folds.below (value_mem_subterms found shape))

theorem writeCount_unfolded (unfolded : ∀ x, folding? ps x = none) (t : Tree) :
    (rebuild ps t).writeCount name = t.writeCount name := by
  have folds : FoldsVariables ps t := by
    intro l op x e _ folded
    rw [unfolded] at folded
    cases folded
  simp only [writeCount_rebuild name folds, foldedBy?_of_unfolded unfolded, Option.isNone_none,
    Bool.and_true]
  rfl

end Tree

namespace Socket

theorem writeCount_fill (σ : Socket) (name : String) (l : Label) (s : Tree) :
    Term.writeCount name (.node l (σ.fill s)) =
      s.writeCount name + (σ.others.map (Term.writeCount name)).sum := by
  have still : Term.writes name (.node l (σ.fill s)) = false := by
    cases σ <;> rfl
  rw [Term.writeCount_node, still, ((σ.children_fill s).map _).sum_eq]
  simp

theorem writeCount_rebuilt (σ : Socket) (name : String) (ps : List Patch) (l : Label)
    (note : Annotation) (s : Tree) :
    Term.writeCount name (.node { l with note } ((σ.rebuild ps s.id).fill (s.rebuild ps))) =
      Term.writeCount name (Tree.rebuild ps (.node l (σ.fill s))) := by
  rw [σ.rebuild_fill]
  exact Tree.writeCount_withNote name note (.node l _)

end Socket

end LocalScope
