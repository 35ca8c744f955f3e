import LocalScope.Proofs.Folding

/-! Carrying out a list of edits, one after another. At every moment the arena holds what the patches
so far make of the tree. -/
namespace LocalScope

namespace Edit

def isInsertion (e : Edit) : Bool :=
  match e.site with
  | .before _ => true
  | .inPlaceOf _ => false

/-- The foldings that find their assignment still there: of those at one site, the first. -/
def effective (seen : List Site) : List Edit → List Edit
  | [] => []
  | e :: es =>
    if e.isInsertion = false ∧ e.site ∉ seen then e :: effective (seen ++ [e.site]) es
    else effective seen es

def carriedOut (es : List Edit) : List Edit := es.filter isInsertion ++ effective [] es

variable {seen : List Site} {es : List Edit}

theorem mem_effective {e : Edit} (member : e ∈ effective seen es) :
    e ∈ es ∧ e.isInsertion = false := by
  fun_induction effective seen es with
  | case1 => cases member
  | case2 seen first rest chosen ih =>
    rcases List.mem_cons.mp member with rfl | later
    · exact ⟨List.mem_cons_self, chosen.1⟩
    · exact ⟨List.mem_cons_of_mem _ (ih later).1, (ih later).2⟩
  | case3 seen first rest passed ih =>
    exact ⟨List.mem_cons_of_mem _ (ih member).1, (ih member).2⟩

theorem effective_sublist : (effective seen es).Sublist (es.filter fun e => !e.isInsertion) := by
  fun_induction effective seen es with
  | case1 => exact .slnil
  | case2 seen first rest chosen ih =>
    rw [List.filter_cons_of_pos (by simp [chosen.1])]
    exact ih.cons_cons first
  | case3 seen first rest passed ih =>
    exact ih.trans ((List.sublist_cons_self first rest).filter _)

theorem carriedOut_subperm (es : List Edit) : (carriedOut es).Subperm es := by
  have split := List.filter_append_perm (isInsertion ·) es
  exact ((List.Sublist.append_left effective_sublist _).subperm).trans split.subperm

theorem effective_covers {e : Edit} (member : e ∈ es) (folding : e.isInsertion = false) :
    e.site ∈ seen ∨ ∃ e' ∈ effective seen es, e'.site = e.site := by
  fun_induction effective seen es with
  | case1 => cases member
  | case2 seen first rest chosen ih =>
    rcases List.mem_cons.mp member with rfl | later
    · exact .inr ⟨e, List.mem_cons_self, rfl⟩
    · rcases ih later with known | ⟨e', found, same⟩
      · rcases List.mem_append.mp known with before | now
        · exact .inl before
        · exact .inr ⟨first, List.mem_cons_self, (List.mem_singleton.mp now).symm⟩
      · exact .inr ⟨e', List.mem_cons_of_mem _ found, same⟩
  | case3 seen first rest passed ih =>
    rcases List.mem_cons.mp member with rfl | later
    · left
      by_contra absent
      exact passed ⟨folding, absent⟩
    · exact ih later

theorem effective_congr {seen' : List Site} (same : ∀ x, .inPlaceOf x ∈ seen ↔ .inPlaceOf x ∈ seen') :
    effective seen es = effective seen' es := by
  induction es generalizing seen seen' with
  | nil => rfl
  | cons e es ih =>
    have agree : (e.isInsertion = false ∧ e.site ∉ seen) ↔ (e.isInsertion = false ∧ e.site ∉ seen') := by
      rw [isInsertion]
      split
      · simp
      · rename_i x site
        rw [site, same]
    simp only [effective, agree]
    split
    · rw [ih]
      intro x
      simp only [List.mem_append, same]
    · exact ih same

def Fits (u : Tree) (e : Edit) : Prop := ∃ n ∈ u.subterms, e.At n

end Edit

namespace Tree

theorem assignment?_rebuild (ps : List Patch) {s r x v : Tree} {op : AssignOp}
    (found : s.assignment? = some r) (shape : r.kind = .assignment op x v)
    (unfolded : folding? ps r.id = none) :
    (rebuild ps s).assignment? = some (rebuild ps r) ∧ (rebuild ps r).label = r.label ∧
      (rebuild ps r).kind = .assignment op (rebuild ps x) (rebuild ps v) ∧
      keptNote (rebuild ps s) = keptNote s := by
  cases r with
  | node l k =>
    rw [Term.kind] at shape
    subst shape
    have made : rebuild ps (.node l (.assignment op x v)) =
        .node l (.assignment op (rebuild ps x) (rebuild ps v)) :=
      rebuild_other ps l _ rfl unfolded
    obtain ⟨-, rfl | around⟩ := Term.assignment?_cases found
    · rw [made]
      exact ⟨rfl, rfl, rfl, rfl⟩
    · cases s with
      | node l' k' =>
        rw [Term.kind] at around
        subst around
        have outer : rebuild ps (.node l' (.expressionStatement (.node l (.assignment op x v)))) =
            .node l' (.expressionStatement (rebuild ps (.node l (.assignment op x v)))) :=
          rebuild_other ps l' _ rfl unfolded
        rw [outer, made]
        exact ⟨rfl, rfl, rfl, rfl⟩

end Tree

namespace Patch

/-- The mark on a declaration is what the code says when its turn comes: for an insertion, that the
block writes the variable once; for a folding, that beside its value there is just the one write that
is folded. -/
inductive Marked (markFinal : Bool) (u : Tree) (ps : List Patch) (p : Patch) : Prop
  | insertion {n s : Tree} (member : n ∈ u.subterms) (listed : s ∈ n.statements)
      (site : p.edit.site = .before s.id)
      (mark : p.isFinal = (markFinal && n.writeCount p.edit.name == 1))
  | folding {n s r x v : Tree} (member : n ∈ u.subterms) (entry : s ∈ n.entries)
      (found : s.assignment? = some r) (site : p.edit.site = .inPlaceOf (Tree.id r))
      (shape : r.kind = .assignment .plain x v)
      (mark : p.isFinal = (markFinal &&
        (n.rebuild ps).writeCount p.edit.name == (v.rebuild ps).writeCount p.edit.name + 1))

/-- All marks of a list, each as the patches before it have left the code. -/
def AllMarked (markFinal : Bool) (u : Tree) (ps : List Patch) : Prop :=
  ∀ before p after, ps = before ++ p :: after → p.Marked markFinal u before

theorem AllMarked.snoc {markFinal : Bool} {u : Tree} {ps : List Patch} {p : Patch}
    (all : AllMarked markFinal u ps) (last : p.Marked markFinal u ps) :
    AllMarked markFinal u (ps ++ [p]) := by
  intro before q after split
  rcases List.eq_nil_or_concat after with rfl | ⟨rest, r, rfl⟩
  · obtain ⟨rfl, same⟩ := List.append_inj' split rfl
    rw [List.cons.injEq] at same
    exact same.1 ▸ last
  · rw [List.concat_eq_append, ← List.cons_append, ← List.append_assoc] at split
    exact all before q rest (List.append_inj' split rfl).1

end Patch

/-- How far a list of edits has been carried out on a tree. -/
structure Applied (u : Tree) (size : Nat) (ps : List Patch) (a : Arena) : Prop where
  holds : a.Holds (u.rebuild ps)
  distinct : u.ids.Nodup
  old : ∀ y ∈ u.ids, y.index < size
  grown : size ≤ a.size
  fresh : ∀ y ∈ Tree.added ps, size ≤ y.index
  fits : ∀ p ∈ ps, p.edit.Fits u
  spent : ∀ x, (Tree.folding? ps x).isSome = true → Edit.Spent a (u.rebuild ps) x

namespace Applied

open Editing

variable {u : Tree} {size : Nat} {ps : List Patch} {a b : Arena} {p : Patch}

theorem unknown (applied : Applied u size ps a) : ∀ y ∈ Tree.added ps, y ∉ u.ids :=
  fun y new inside => absurd (applied.old y inside) (Nat.not_lt.mpr (applied.fresh y new))

theorem folded_entry (applied : Applied u size ps a) {x : NodeId}
    (found : Tree.folding? ps x = some p) :
    ∃ n ∈ u.subterms, ∃ s ∈ n.entries, ∃ r, s.assignment? = some r ∧ Tree.id r = x ∧
      ∃ y v, r.kind = .assignment .plain y v ∧ y.isIdentifier p.edit.name = true := by
  obtain ⟨known, site⟩ := Tree.folding?_mem found
  obtain ⟨n, inside, ⟨s, -, before⟩ | ⟨s, entry, r, assignment, inPlace, shape⟩⟩ :=
    applied.fits p known
  · rw [site] at before
    cases before
  · rw [site, Site.inPlaceOf.injEq] at inPlace
    exact ⟨n, inside, s, entry, r, assignment, inPlace.symm, shape⟩

theorem foldsVariables (applied : Applied u size ps a) : Tree.FoldsVariables ps u := by
  intro l op x e member folded
  obtain ⟨p, found⟩ := Option.isSome_iff_exists.mp folded
  obtain ⟨n, inside, s, entry, r, assignment, inPlace, y, v, shape, named⟩ :=
    applied.folded_entry found
  have deep : r ∈ u.subterms :=
    Term.subterms_trans (Term.mem_subterms_of_child (Term.entry_mem_children entry)
      (Term.assignment?_mem_subterms assignment)) inside
  have same : r = .node l (.assignment op x e) :=
    List.inj_on_of_nodup_map applied.distinct deep member inPlace
  rw [same, Term.kind, Kind.assignment.injEq] at shape
  obtain ⟨-, rfl, -⟩ := shape
  exact ⟨_, Term.isIdentifier_iff.mp named⟩

theorem folded_child (applied : Applied u size ps a) {n c : Tree} (member : n ∈ u.subterms)
    (child : c ∈ n.children) (folded : Tree.foldedBy? ps c = some p) :
    c ∈ n.entries ∨ n.assignment? = some c := by
  obtain ⟨r, found, folded⟩ := Option.bind_eq_some_iff.mp folded
  obtain ⟨n', member', s, entry, r', found', same, -⟩ := applied.folded_entry folded
  have inTree {n s : Tree} (member : n ∈ u.subterms) (child : s ∈ n.children) : s ∈ u.subterms :=
    Term.subterms_trans (Term.child_mem_subterms child) member
  have child' := Term.entry_mem_children entry
  have inner {s : Tree} (around : s.kind = .expressionStatement r) : r ∈ s.children := by
    simp [Term.children, around, Kind.children, Kind.slots, Slot.children]
  obtain rfl : r' = r := List.inj_on_of_nodup_map applied.distinct
    (Term.subterms_trans (Term.assignment?_mem_subterms found') (inTree member' child'))
    (Term.subterms_trans (Term.assignment?_mem_subterms found) (inTree member child)) same
  obtain ⟨-, rfl | around⟩ := Term.assignment?_cases found
  · obtain ⟨-, rfl | around'⟩ := Term.assignment?_cases found'
    · obtain rfl := Tree.parent_unique applied.distinct member member' child child'
      exact .inl entry
    · obtain rfl := Tree.parent_unique applied.distinct member (inTree member' child') child
        (inner around')
      exact .inr found'
  · obtain ⟨-, rfl | around'⟩ := Term.assignment?_cases found'
    · obtain rfl := Tree.parent_unique applied.distinct member' (inTree member child) child'
        (inner around)
      rw [Term.assignment?_of_entry entry] at found
      cases found
    · obtain rfl := Tree.parent_unique applied.distinct (inTree member child)
        (inTree member' child') (inner around) (inner around')
      obtain rfl := Tree.parent_unique applied.distinct member member' child child'
      exact .inl entry

/- What is folded is below some other node, so the tree as a whole is not. -/
theorem root (applied : Applied u size ps a) : Tree.foldedBy? ps u = none := by
  by_contra folded
  obtain ⟨p, folded⟩ := Option.ne_none_iff_exists'.mp folded
  obtain ⟨r, found, folded⟩ := Option.bind_eq_some_iff.mp folded
  obtain ⟨n, inside, s, entry, r', found', same, -⟩ := applied.folded_entry folded
  have inEntry := Term.assignment?_mem_subterms found'
  have deep := Term.mem_subterms_of_child (Term.entry_mem_children entry) inEntry
  have top := Term.assignment?_mem_subterms found
  obtain rfl : r' = r :=
    List.inj_on_of_nodup_map applied.distinct (Term.subterms_trans deep inside) top same
  have first := Term.size_lt_of_mem_children (Term.entry_mem_children entry)
  have second := Term.size_le_of_mem_subterms inEntry
  obtain ⟨-, rfl | around⟩ := Term.assignment?_cases found
  · have third := Term.size_le_of_mem_subterms inside
    omega
  · cases u with
    | node l k =>
      rw [Term.kind] at around
      subst around
      rcases Term.mem_subterms_node.mp inside with rfl | ⟨c, child, below⟩
      · rw [Term.assignment?_of_entry entry] at found
        cases found
      · have only : c = r' := by simpa [Kind.children, Kind.slots, Slot.children] using child
        have third := Term.size_le_of_mem_subterms below
        rw [only] at third
        omega

theorem extend (applied : Applied u size ps a) (fits : p.edit.Fits u)
    (fresh : ∀ y ∈ Tree.added [p], a.size ≤ y.index)
    (carried : Arena.Carried (u.rebuild ps) (u.rebuild (ps ++ [p])) a b)
    (spent : ∀ x, p.edit.site = .inPlaceOf x → Edit.Spent b (u.rebuild (ps ++ [p])) x) :
    Applied u size (ps ++ [p]) b where
  holds := carried.holds
  distinct := applied.distinct
  old := applied.old
  grown := applied.grown.trans carried.confined.grows
  fresh y new := by
    rw [Tree.added, List.flatMap_append, List.mem_append] at new
    rcases new with known | now
    · exact applied.fresh y known
    · exact applied.grown.trans (fresh y now)
  fits q known := by
    rcases List.mem_append.mp known with before | now
    · exact applied.fits q before
    · rw [List.mem_singleton.mp now]
      exact fits
  spent x folded := by
    by_cases site : p.edit.site = .inPlaceOf x
    · exact spent x site
    · have before : (Tree.folding? ps x).isSome = true := by
        simpa [Tree.folding?, site] using folded
      exact (applied.spent x before).carry carried

theorem holder (applied : Applied u size ps a) {l : Label} {σ : Socket} {s : Tree}
    (member : .node l (σ.fill s) ∈ u.subterms) (entry : s ∈ (Term.node l (σ.fill s)).entries) :
    ∃ note, .node { l with note } ((σ.rebuild ps s.id).fill (s.rebuild ps)) ∈
      (u.rebuild ps).subterms := by
  have kept := Tree.foldedBy?_of_entry ps entry
  have inner (name : String) : (Term.node l (σ.fill s)).kind ≠ .identifier name := by
    cases σ <;> exact fun same => by cases same
  obtain ⟨note, inside⟩ := Tree.rebuild_mem_subterms applied.foldsVariables member kept inner
  rw [σ.rebuild_fill] at inside
  exact ⟨note, inside⟩

theorem patched (applied : Applied u size ps a) {l : Label} {σ : Socket} {s : Tree}
    (member : .node l (σ.fill s) ∈ u.subterms) (at' : p.edit.At (.node l (σ.fill s))) :
    u.rebuild (ps ++ [p]) =
      Tree.graft l.id ((σ.rebuild (ps ++ [p]) s.id).fill (s.rebuild (ps ++ [p]))) (u.rebuild ps) := by
  rw [Tree.rebuild_append applied.distinct applied.unknown at' member, σ.rebuild_fill]
  rfl

theorem apart (applied : Applied u size ps a) {l : Label} {σ : Socket} {s : Tree}
    (member : .node l (σ.fill s) ∈ u.subterms) {y : NodeId} (inside : y ∈ s.ids) :
    y ∉ σ.others.flatMap Tree.ids :=
  (σ.nodup_fill.mp (applied.distinct.sublist (Tree.ids_sublist member))).between y inside

theorem insertion_step (applied : Applied u size ps a)
    (unfolded : ∀ x, Tree.folding? ps x = none) (markFinal : Bool) {e : Edit} (fits : e.Fits u)
    {x : NodeId} (site : e.site = .before x) :
    ∃ p b, e.insert markFinal x a = .ok true b ∧ p.edit = e ∧ p.Marked markFinal u ps ∧
      Applied u size (ps ++ [p]) b := by
  have whole := fits
  obtain ⟨⟨l, k⟩, member, at'⟩ := whole
  have entry := at'
  rcases entry with ⟨s, listed, before⟩ | ⟨s, entry, r, found, inPlace, -⟩
  · rw [site, Site.before.injEq] at before
    subst before
    obtain ⟨first, last, split⟩ := List.append_of_mem listed
    have shape : k = (Socket.block first last).fill s := by
      rw [Socket.fill, ← split]
      exact Term.kind_of_statement listed
    subst shape
    obtain ⟨note, inside⟩ := applied.holder member (List.mem_append_left _ listed)
    have kept := Tree.foldedBy?_of_unfolded unfolded s
    have name : (s.rebuild ps).id = s.id := congrArg Label.id (Tree.label_rebuild ps kept)
    obtain ⟨p, b, run, edit, mark, fresh, carried⟩ :=
      Edit.insert_ok markFinal e applied.holds inside
    rw [name] at run
    subst edit
    have counted := (Socket.block first last).writeCount_rebuilt p.edit.name ps l note s
    rw [Tree.writeCount_unfolded _ unfolded] at counted
    have marked : p.Marked markFinal u ps :=
      .insertion member listed site (by rw [mark, ← counted]; rfl)
    have own : s.rebuild (ps ++ [p]) = s.rebuild ps := by
      apply Tree.rebuild_congr
      · simp [Tree.folding?, site]
      · intro y below
        apply Tree.agree_append
        rw [site]
        rintro rfl
        obtain ⟨c, child, within⟩ := List.mem_flatMap.mp below
        have inTree : s ∈ u.subterms :=
          Term.subterms_trans (Term.child_mem_subterms (Term.statement_mem_children listed)) member
        exact Tree.id_not_mem_child (applied.distinct.sublist (Tree.ids_sublist inTree)) child within
    have outside := applied.apart member (Tree.id_mem_ids s)
    have after := applied.patched member at'
    rw [Socket.rebuild_insertion (by rw [site]; exact outside) site, own, Socket.fill,
      List.append_assoc, List.singleton_append] at after
    refine ⟨p, b, run, rfl, marked, applied.extend fits fresh (after ▸ carried) ?_⟩
    rw [site]
    exact fun x same => by cases same
  · rw [site] at inPlace
    cases inPlace

theorem folding_step (applied : Applied u size ps a) (markFinal : Bool) {e : Edit} (fits : e.Fits u)
    {x : NodeId} (site : e.site = .inPlaceOf x) (unfolded : Tree.folding? ps x = none) :
    ∃ p b, e.fold markFinal x a = .ok true b ∧ p.edit = e ∧ p.Marked markFinal u ps ∧
      Applied u size (ps ++ [p]) b := by
  have whole := fits
  obtain ⟨⟨l, k⟩, member, at'⟩ := whole
  have entry := at'
  rcases entry with ⟨s, listed, before⟩ | ⟨s, entry, r, found, inPlace, y, v, shape, -⟩
  · rw [site] at before
    cases before
  · rw [site, Site.inPlaceOf.injEq] at inPlace
    subst inPlace
    obtain ⟨σ, rfl⟩ := Socket.of_entry entry
    obtain ⟨note, inside⟩ := applied.holder member entry
    obtain ⟨found', label, shape', noted⟩ := Tree.assignment?_rebuild ps found shape unfolded
    have name : (Tree.rebuild ps r).id = Tree.id r := congrArg Label.id label
    obtain ⟨p, b, run, edit, mark, fresh, carried, spent⟩ :=
      Edit.fold_ok markFinal e applied.holds inside found' shape'
    rw [name] at run spent
    rw [label, noted] at carried spent
    subst edit
    have marked : p.Marked markFinal u ps :=
      .folding member entry found site shape (by rw [mark, σ.writeCount_rebuilt])
    have inEntry : r ∈ s.subterms := Term.assignment?_mem_subterms found
    have inTree : s ∈ u.subterms :=
      Term.subterms_trans (Term.child_mem_subterms (Term.entry_mem_children entry)) member
    have outside := applied.apart member (Tree.ids_subset inEntry (Tree.id_mem_ids r))
    have chosen : Tree.folding? (ps ++ [p]) (Tree.id r) = some p := by
      rw [Tree.folding?] at unfolded ⊢
      simp [List.find?_append, unfolded, site]
    have value : Tree.rebuild (ps ++ [p]) v = Tree.rebuild ps v := by
      apply Tree.rebuild_append_of_not_mem
      rw [site]
      have once := applied.distinct.sublist (Tree.ids_sublist (Term.subterms_trans inEntry inTree))
      exact Tree.id_not_mem_child once
        (by simp [Term.children, shape, Kind.children, Kind.slots, Slot.children])
    have after := applied.patched member at'
    rw [σ.rebuild_folding (by rw [site]; exact outside) site,
      Tree.rebuild_folded (ps ++ [p]) found shape chosen, value] at after
    refine ⟨p, b, run, rfl, marked, applied.extend fits fresh (after ▸ carried) ?_⟩
    intro x same
    rw [site, Site.inPlaceOf.injEq] at same
    subst same
    rw [after]
    exact spent

end Applied

namespace Edit

open Editing

variable {u : Tree} {size : Nat} {ps : List Patch} {a : Arena} (markFinal : Bool)

theorem insertAll_ok (es : List Edit) (stats : Stats) (applied : Applied u size ps a)
    (marked : Patch.AllMarked markFinal u ps) (unfolded : ∀ x, Tree.folding? ps x = none)
    (fits : ∀ e ∈ es, e.Fits u) :
    ∃ qs b, es.foldlM (applyInsertion markFinal) stats a =
        .ok { stats with inserted := stats.inserted + qs.length } b ∧
      qs.map Patch.edit = es.filter isInsertion ∧ Applied u size (ps ++ qs) b ∧
      Patch.AllMarked markFinal u (ps ++ qs) ∧ ∀ x, Tree.folding? (ps ++ qs) x = none := by
  induction es generalizing stats ps a with
  | nil =>
    rw [← List.append_nil ps] at applied marked unfolded
    exact ⟨[], a, rfl, rfl, applied, marked, unfolded⟩
  | cons e es ih =>
    have later := fun e' listed => fits e' (List.mem_cons_of_mem e listed)
    rw [List.foldlM_cons]
    cases site : e.site with
    | before x =>
      obtain ⟨p, b, run, edit, mark, next⟩ :=
        applied.insertion_step unfolded markFinal (fits e List.mem_cons_self) site
      have first : applyInsertion markFinal stats e a =
          .ok { stats with inserted := stats.inserted + 1 } b := by
        simp only [applyInsertion, site]
        rw [bind_ok run]
        rfl
      have still (x : NodeId) : Tree.folding? (ps ++ [p]) x = none := by
        have old := unfolded x
        rw [Tree.folding?] at old ⊢
        simp [List.find?_append, old, edit, site]
      obtain ⟨qs, c, rest, edits, done, marks, none⟩ :=
        ih { stats with inserted := stats.inserted + 1 } next (marked.snoc mark) still later
      rw [List.append_assoc, List.singleton_append] at done marks none
      refine ⟨p :: qs, c, ?_, ?_, done, marks, none⟩
      · rw [bind_ok first, rest]
        simp only [List.length_cons, Nat.add_assoc, Nat.add_comm 1]
      · simp [edits, edit, isInsertion, site]
    | inPlaceOf x =>
      have first : applyInsertion markFinal stats e a = .ok stats a := by
        simp only [applyInsertion, site]
        rfl
      obtain ⟨qs, c, rest, edits, done, marks, none⟩ := ih stats applied marked unfolded later
      refine ⟨qs, c, ?_, ?_, done, marks, none⟩
      · rw [bind_ok first, rest]
      · simp [edits, isInsertion, site]

theorem foldAll_ok (es : List Edit) (stats : Stats) (applied : Applied u size ps a)
    (marked : Patch.AllMarked markFinal u ps) (fits : ∀ e ∈ es, e.Fits u) :
    ∃ qs skipped b, es.foldlM (applyFolding markFinal) stats a =
        .ok { stats with folded := stats.folded + qs.length, skipped := stats.skipped + skipped } b ∧
      qs.length + skipped = (es.filter fun e => !e.isInsertion).length ∧
      qs.map Patch.edit = effective (ps.map fun p => p.edit.site) es ∧
      Applied u size (ps ++ qs) b ∧ Patch.AllMarked markFinal u (ps ++ qs) := by
  induction es generalizing stats ps a with
  | nil =>
    rw [← List.append_nil ps] at applied marked
    exact ⟨[], 0, a, rfl, rfl, rfl, applied, marked⟩
  | cons e es ih =>
    have later := fun e' listed => fits e' (List.mem_cons_of_mem e listed)
    rw [List.foldlM_cons]
    cases site : e.site with
    | before x =>
      have first : applyFolding markFinal stats e a = .ok stats a := by
        simp only [applyFolding, site]
        rfl
      obtain ⟨qs, skipped, c, rest, count, edits, done⟩ := ih stats applied marked later
      refine ⟨qs, skipped, c, ?_, ?_, ?_, done⟩
      · rw [bind_ok first, rest]
      · simp [count, isInsertion, site]
      · simp [edits, effective, isInsertion, site]
    | inPlaceOf x =>
      have folding : e.isInsertion = false := by simp [isInsertion, site]
      have known : e.site ∈ ps.map (fun p => p.edit.site) ↔ (Tree.folding? ps x).isSome = true := by
        simp [Tree.folding?, site]
      cases folded : Tree.folding? ps x with
      | none =>
        obtain ⟨p, b, run, edit, mark, next⟩ :=
          applied.folding_step markFinal (fits e List.mem_cons_self) site folded
        have first : applyFolding markFinal stats e a =
            .ok { stats with folded := stats.folded + 1 } b := by
          simp only [applyFolding, site]
          rw [bind_ok run]
          rfl
        obtain ⟨qs, skipped, c, rest, count, edits, done⟩ :=
          ih { stats with folded := stats.folded + 1 } next (marked.snoc mark) later
        rw [List.append_assoc, List.singleton_append] at done
        have absent : e.site ∉ ps.map (fun p => p.edit.site) := by
          rw [known, folded]
          simp
        refine ⟨p :: qs, skipped, c, ?_, ?_, ?_, done⟩
        · rw [bind_ok first, rest]
          simp only [List.length_cons, Nat.add_assoc, Nat.add_comm 1]
        · rw [List.filter_cons_of_pos (by simp [folding]), List.length_cons, List.length_cons, ← count]
          omega
        · rw [effective, if_pos ⟨folding, absent⟩]
          simp [edits, edit]
      | some p =>
        -- An earlier folding has left the assignment spent, so this one changes nothing.
        have first : applyFolding markFinal stats e a =
            .ok { stats with skipped := stats.skipped + 1 } a := by
          simp only [applyFolding, site]
          rw [bind_ok (fold_spent markFinal e (applied.spent x (by simp [folded])))]
          rfl
        obtain ⟨qs, skipped, c, rest, count, edits, done⟩ :=
          ih { stats with skipped := stats.skipped + 1 } applied marked later
        have present : e.site ∈ ps.map (fun p => p.edit.site) := by
          rw [known, folded]
          rfl
        refine ⟨qs, skipped + 1, c, ?_, ?_, ?_, done⟩
        · rw [bind_ok first, rest]
          simp only [Nat.add_assoc, Nat.add_comm 1]
        · rw [List.filter_cons_of_pos (by simp [folding]), List.length_cons, ← count, Nat.add_assoc]
        · rw [effective, if_neg (fun both => both.2 present), edits]

theorem applyAll_ok (es : List Edit) (held : a.Holds u) (fits : ∀ e ∈ es, e.Fits u) :
    ∃ ps stats b, applyAll markFinal es a = .ok stats b ∧ Applied u a.size ps b ∧
      Patch.AllMarked markFinal u ps ∧ ps.map Patch.edit = carriedOut es ∧
      stats.inserted = (es.filter isInsertion).length ∧
      stats.folded = (effective [] es).length ∧
      stats.folded + stats.skipped = (es.filter fun e => !e.isInsertion).length := by
  have start : Applied u a.size [] a := by
    refine ⟨?_, held.distinct, fun y inside => held.index_lt inside, Nat.le_refl _, ?_, ?_, ?_⟩
    · rw [Tree.rebuild_nil]
      exact held
    · intro y inside
      cases inside
    · intro p listed
      cases listed
    · intro x found
      cases found
  have unmarked : Patch.AllMarked markFinal u [] := by
    intro before p after split
    cases before <;> cases split
  obtain ⟨ps, b, first, inserted, mid, marked, unfolded⟩ :=
    insertAll_ok markFinal es {} start unmarked (fun _ => rfl) fits
  obtain ⟨qs, skipped, c, second, count, folded, done, marks⟩ :=
    foldAll_ok markFinal es { inserted := 0 + ps.length } mid marked fits
  have seen : effective (ps.map fun p => p.edit.site) es = effective [] es := by
    apply effective_congr
    intro x
    have none := unfolded x
    simp only [List.nil_append, Tree.folding?, List.find?_eq_none] at none
    simpa using none
  simp only [List.nil_append] at mid done marks folded unfolded
  rw [seen] at folded
  refine ⟨ps ++ qs, ⟨0 + ps.length, 0 + qs.length, 0 + skipped⟩, c, ?_, done, marks, ?_, ?_, ?_, ?_⟩
  · rw [applyAll, bind_ok first]
    exact second
  · rw [List.map_append, inserted, folded, carriedOut]
  · simp [← inserted]
  · simp [← folded]
  · simpa using count

end Edit

end LocalScope
