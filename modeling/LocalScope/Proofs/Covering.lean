import LocalScope.Proofs.Scoping

namespace LocalScope

/-- Exactly one entry of a list has the property. -/
def Once {α : Type} (P : α → Prop) (xs : List α) : Prop :=
  ∃ before x after, xs = before ++ x :: after ∧ P x ∧ ∀ y ∈ before ++ after, ¬ P y

namespace Once

variable {α β : Type} {P : α → Prop}

theorem single {x : α} (holds : P x) : Once P [x] :=
  ⟨[], x, [], rfl, holds, fun _ none => by cases none⟩

theorem flatMap {f : β → List α} {before after : List β} {b : β} (once : Once P (f b))
    (others : ∀ c ∈ before ++ after, ∀ x ∈ f c, ¬ P x) :
    Once P ((before ++ b :: after).flatMap f) := by
  obtain ⟨first, x, last, split, holds, rest⟩ := once
  refine ⟨before.flatMap f ++ first, x, last ++ after.flatMap f, ?_, holds, ?_⟩
  · simp [split]
  · intro y member
    have cases' : (∃ c ∈ before ++ after, y ∈ f c) ∨ y ∈ first ++ last := by
      simp only [List.mem_append, List.mem_flatMap] at member ⊢
      grind
    rcases cases' with ⟨c, listed, inside⟩ | inside
    · exact others c listed y inside
    · exact rest y inside

end Once

namespace Tree

/-- An occurrence of a variable that no clause around it hides. -/
inductive FreeUse (name : String) : Tree → NodeId → Prop
  | here (l : Label) : FreeUse name (.node l (.identifier name)) l.id
  | under {l : Label} {k : Kind Tree} {c : Tree} {x : NodeId} (visible : Term.hides name k = false)
      (child : c ∈ k.children) (free : FreeUse name c x) : FreeUse name (.node l k) x

namespace FreeUse

variable {name : String} {t : Tree} {x : NodeId}

theorem mem_ids (free : FreeUse name t x) : x ∈ t.ids := by
  induction free with
  | here l => exact id_mem_ids _
  | under visible child free ih => exact ids_child_subset (t := .node _ _) child ih

theorem uses (free : FreeUse name t x) : t.uses name = true := by
  induction free with
  | here l => simp [Term.uses_node, Kind.map, Term.usesAt]
  | under visible child free ih => exact Term.uses_of_child visible child ih

theorem child (free : FreeUse name t x) (inner : t.kind ≠ .identifier name) :
    ∃ c ∈ t.children, FreeUse name c x := by
  cases free with
  | here l => exact absurd rfl inner
  | under visible child free => exact ⟨_, child, free⟩

theorem target {s r y value : Tree} {op : AssignOp} (free : FreeUse name s x)
    (found : s.assignment? = some r) (shape : r.kind = .assignment op y value)
    (unused : value.uses name = false) : x ∈ y.ids := by
  have bare (free : FreeUse name r x) : x ∈ y.ids := by
    obtain ⟨c, child, free⟩ := free.child (by simp [shape])
    have which : c = y ∨ c = value := by
      simpa [Term.children, shape, Kind.children, Kind.slots, Slot.children] using child
    rcases which with rfl | rfl
    · exact free.mem_ids
    · rw [free.uses] at unused
      cases unused
  obtain ⟨-, rfl | around⟩ := Term.assignment?_cases found
  · exact bare free
  · obtain ⟨c, child, free⟩ := free.child (by simp [around])
    have only : c = r := by
      simpa [Term.children, around, Kind.children, Kind.slots, Slot.children] using child
    exact bare (only ▸ free)

theorem of_identifier {i : Tree} (member : i ∈ t.subterms) (shape : i.kind = .identifier name)
    (visible : ∀ c ∈ t.subterms, Term.hides name c.kind = true → i ∉ c.subterms) :
    FreeUse name t i.id := by
  induction t using Term.inductChildren with
  | step l k ih =>
    rcases Term.mem_subterms_node.mp member with rfl | ⟨c, child, below⟩
    · rw [Term.kind] at shape
      subst shape
      exact .here l
    · have here : Term.hides name k = false := by
        by_contra hidden
        exact visible _ (Term.self_mem_subterms _) (Bool.eq_true_of_not_eq_false hidden) member
      refine .under here child (ih c child below fun d inside => visible d ?_)
      exact Term.mem_subterms_of_child (t := .node l k) child inside

end FreeUse

theorem free_receiver {name : String} {intoLoops : Bool} {s : Tree} {x : NodeId}
    (free : FreeUse name s x) (inner : s.kind ≠ .identifier name)
    (confined : s.confines name intoLoops = true) (noHeader : s.headerValue? name = none) :
    ∃ r ∈ s.receivers, r.isBlock = true ∧ FreeUse name r x := by
  have left : s.children.all (Term.leavesToBlocks name) = true := by
    rw [Term.confines, noHeader] at confined
    split at confined
    · cases confined
    · exact confined
  cases free with
  | here l => exact absurd rfl inner
  | @under l k part x visible child free =>
    have leaves := List.all_eq_true.mp left part child
    simp only [Term.receivers, List.mem_flatMap]
    cases block : part.isBlock with
    | true => exact ⟨part, ⟨part, child, by simp [block]⟩, block, free⟩
    | false =>
      simp only [Term.leavesToBlocks, block, free.uses, Bool.false_or, Bool.not_true,
        Bool.and_eq_true, List.all_eq_true] at leaves
      obtain ⟨holds, inners⟩ := leaves
      cases free with
      | here l => cases holds
      | @under l' k' inner x visible' child' free =>
        have isBlock : inner.isBlock = true := by
          have either := inners inner child'
          simpa [free.uses] using either
        refine ⟨inner, ⟨_, child, ?_⟩, isBlock, free⟩
        rw [if_neg (by simp [block]), if_pos holds]
        exact List.mem_filter.mpr ⟨child', isBlock⟩

theorem not_mem_others {before after : List Tree} {c d : Tree} {x : NodeId}
    (distinct : ((before ++ c :: after).flatMap ids).Nodup) (inside : x ∈ c.ids)
    (other : d ∈ before ++ after) : x ∉ d.ids := by
  have apart : ((c :: (before ++ after)).flatMap ids).Nodup :=
    (List.perm_middle.flatMap_right ids).nodup_iff.mp distinct
  rw [List.flatMap_cons, List.nodup_append] at apart
  exact fun common => apart.2.2 x inside x (List.mem_flatMap.mpr ⟨d, other, common⟩) rfl

theorem ids_receivers (t : Tree) : (t.receivers.flatMap ids).Sublist t.ids := by
  obtain ⟨l, k⟩ := t
  have each (part : Tree) :
      ((if part.isBlock then [part]
        else if part.kind.holdsBlocks then part.children.filter Term.isBlock
        else []).flatMap ids).Sublist part.ids := by
    split
    · simp
    · split
      · obtain ⟨l', k'⟩ := part
        rw [ids_node]
        exact (List.filter_sublist.flatMap _).trans (List.sublist_cons_self _ _)
      · exact List.nil_sublist _
  rw [ids_node, Term.receivers, List.flatMap_assoc]
  exact (List.Sublist.flatMap_right k.children fun part _ => each part).trans (List.sublist_cons_self _ _)

theorem absorbableHeader?_of_confines {name : String} {intoLoops : Bool} {s value : Tree}
    (confined : s.confines name intoLoops = true) (header : s.headerValue? name = some value) :
    (s.absorbableHeader? name).isSome = true := by
  rw [Term.confines, header] at confined
  split at confined
  · cases confined
  · obtain ⟨init, r, x, only, found, shape, named⟩ := Term.headerValue?_eq_some.mp header
    have unused : value.uses name = false := by simpa using confined
    have absorbs : init.absorbable? name = some (r, x) :=
      Term.absorbable?_eq_some.mpr ⟨value, found, shape, named, unused⟩
    exact Option.isSome_of_eq_some
      (Term.absorbableHeader?_eq_some.mpr ⟨init, only, absorbs⟩)

theorem confines_of_handsOn {name : String} {intoLoops : Bool} {ss : List Tree} {s : Tree}
    (hands : handsOn name intoLoops ss = true) (listed : s ∈ ss) (used : s.uses name = true) :
    s.confines name intoLoops = true := by
  induction ss with
  | nil => cases listed
  | cons r rest ih =>
    rw [handsOn, Bool.and_eq_true] at hands
    rcases List.mem_cons.mp listed with rfl | later
    · have first := hands.1
      rw [used, Bool.not_true, Bool.false_or, Bool.and_eq_true] at first
      exact first.1
    · exact ih hands.2 later

end Tree

namespace Edit

variable {u q : Tree} {e : Edit} {x : NodeId}

theorem Covers.inside (covers : e.Covers u x) (distinct : u.ids.Nodup) (fits : e.Fits q)
    (member : q ∈ u.subterms) : x ∈ q.ids := by
  obtain ⟨m, below, at'⟩ := fits
  have inTree := Term.subterms_trans below member
  -- The holder that the edit is about is the same on both sides.
  have close {n c : Tree} (same : n = m) (child : c ∈ n.children) (inside : x ∈ c.ids) :
      x ∈ q.ids := by
    subst same
    exact Tree.ids_subset below (Tree.ids_child_subset child inside)
  cases covers with
  | @insertion n s r before after known split site later inside =>
    have listed : s ∈ n.statements := by simp [split]
    rcases at' with ⟨s', listed', before'⟩ | ⟨_, _, _, _, inPlace, _⟩
    · have child := Term.statement_mem_children listed
      have child' := Term.statement_mem_children listed'
      rw [site, Site.before.injEq] at before'
      have same : s = s' := List.inj_on_of_nodup_map distinct
        (Term.subterms_trans (Term.child_mem_subterms child) known)
        (Term.subterms_trans (Term.child_mem_subterms child') inTree) before'
      subst same
      have other : r ∈ n.statements := by
        rw [split]
        exact List.mem_append_right _ later
      exact close (Tree.parent_unique distinct known inTree child child')
        (Term.statement_mem_children other) inside
    · rw [site] at inPlace
      cases inPlace
  | @folding n s r c before after known entry split found site later inside =>
    rcases at' with ⟨_, _, before'⟩ | ⟨s', entry', r', found', inPlace, -⟩
    · rw [site] at before'
      cases before'
    · have child := Term.entry_mem_children entry
      have child' := Term.entry_mem_children entry'
      rw [site, Site.inPlaceOf.injEq] at inPlace
      have same : r = r' := List.inj_on_of_nodup_map distinct
        (Term.subterms_trans (Term.mem_subterms_of_child child
          (Term.assignment?_mem_subterms found)) known)
        (Term.subterms_trans (Term.mem_subterms_of_child child'
          (Term.assignment?_mem_subterms found')) inTree) inPlace
      subst same
      have equal := Tree.eq_of_assignment? distinct known inTree child
        (Term.assignment?_of_entry entry) child' (Term.assignment?_of_entry entry') found found'
      subst equal
      have other : c ∈ n.children := by
        apply Kind.mem_children_of_listing
        rw [split, List.append_assoc, List.cons_append]
        exact List.mem_append_right _ (List.mem_cons_of_mem _ later)
      exact close (Tree.parent_unique distinct known inTree child child') other inside

/-- The edit takes the place of the assignment that the node is the target of. -/
def Consumes (u : Tree) (e : Edit) (x : NodeId) : Prop :=
  ∃ r ∈ u.subterms, e.site = .inPlaceOf (Tree.id r) ∧
    ∃ op y v, r.kind = .assignment op y v ∧ x ∈ Tree.ids y

end Edit

namespace LocalVariable

variable {o : Options} {v : LocalVariable} {u : Tree} {x : NodeId}

theorem header_covers {s : Tree} {e : Edit} (fold : v.headerFold? o s = some e)
    (member : s ∈ u.subterms) (free : Tree.FreeUse v.name s x) (alive : ¬ e.Consumes u x) :
    e.Covers u x := by
  rw [headerFold?] at fold
  split at fold
  · obtain ⟨⟨r, y⟩, absorbs, rfl⟩ := Option.map_eq_some_iff.mp fold
    obtain ⟨init, only, absorbs⟩ := Term.absorbableHeader?_eq_some.mp absorbs
    obtain ⟨value, found, shape, named, unused⟩ := Term.absorbable?_eq_some.mp absorbs
    obtain ⟨cond, update, body, header⟩ := Term.onlyInit?_eq_some.mp only
    obtain ⟨c, child, free⟩ := free.child (by simp [header])
    have which : c = init ∨ c ∈ s.kind.onward := by
      simpa [Term.children, header, Kind.children, Kind.slots, Slot.children, Kind.onward]
        using child
    rcases which with rfl | later
    · have inTree := Term.subterms_trans (Term.mem_subterms_of_child child
        (Term.assignment?_mem_subterms found)) member
      exact absurd ⟨r, inTree, rfl, _, y, value, shape, free.target found shape unused⟩ alive
    · have entry : init ∈ s.entries := List.mem_append_right _ (by simp [only])
      have listed : s.kind.listing = [] ++ init :: [] := by rw [header]; rfl
      exact .folding member entry listed found rfl later free.mem_ids
  · cases fold

theorem point_covers {block point s : Tree} {before after : List Tree} (member : block ∈ u.subterms)
    (split : block.statements = before ++ point :: after) (listed : s ∈ point :: after)
    (free : Tree.FreeUse v.name s x) (alive : ¬ (v.declareAt o point).Consumes u x) :
    (v.declareAt o point).Covers u x := by
  have known : point ∈ block.statements := by simp [split]
  have shape : block.kind = .block block.statements := Term.kind_of_statement known
  rw [declareAt] at alive ⊢
  cases fold : v.pointFold? o point with
  | none => exact .insertion member split rfl listed free.mem_ids
  | some e =>
    rw [fold, Option.getD_some] at alive
    rw [Option.getD_some]
    rw [pointFold?] at fold
    split at fold
    · obtain ⟨⟨r, y⟩, absorbs, rfl⟩ := Option.map_eq_some_iff.mp fold
      obtain ⟨value, found, assigns, named, unused⟩ := Term.absorbable?_eq_some.mp absorbs
      rcases List.mem_cons.mp listed with rfl | later
      · have inTree := Term.subterms_trans (Term.mem_subterms_of_child
          (Term.statement_mem_children known) (Term.assignment?_mem_subterms found)) member
        exact absurd ⟨r, inTree, rfl, _, y, value, assigns, free.target found assigns unused⟩ alive
      · have listing : block.kind.listing = before ++ point :: after := by
          rw [shape, ← split]
          rfl
        exact .folding member (List.mem_append_left _ known) listing found rfl
          (List.mem_append_left _ later) free.mem_ids
    · cases fold

theorem noHeader_of_moves {block s : Tree} (moves : v.moves o block = true)
    (listed : s ∈ block.statements) (used : s.uses v.name = true)
    (unfolded : v.headerFold? o s = none) : s.headerValue? v.name = none := by
  rw [LocalVariable.moves, Bool.and_eq_true] at moves
  have confined := Tree.confines_of_handsOn moves.1 listed used
  by_contra header
  obtain ⟨value, header⟩ := Option.ne_none_iff_exists'.mp header
  have absorbs := Tree.absorbableHeader?_of_confines confined header
  cases folds : o.foldInitializers with
  | true =>
    rw [headerFold?, if_pos folds, Option.map_eq_none_iff] at unfolded
    rw [unfolded] at absorbs
    cases absorbs
  | false =>
    have stays := moves.2
    rw [mayMove, folds, Bool.false_or, Bool.not_eq_true', List.any_eq_false] at stays
    exact stays s listed absorbs

theorem spreadOver_fits {s : Tree} {e : Edit} (planned : e ∈ v.spreadOver o s) : e.Fits s := by
  rw [spreadOver] at planned
  split at planned
  · rename_i fold
    rw [List.mem_singleton.mp planned]
    exact ⟨s, Term.self_mem_subterms s, (headerFold?_at fold).1⟩
  · obtain ⟨r, received, planned⟩ := List.mem_flatMap.mp planned
    exact (spread_fits planned).1.above (Term.receiver_mem_subterms received)

/- Of parts that have no number in common, only the one with the use has an edit that covers it. -/
theorem once_flatMap {ts : List Tree} {t : Tree} {plan : Tree → List Edit} (distinct : u.ids.Nodup)
    (apart : (ts.flatMap Tree.ids).Nodup) (within : ∀ q ∈ ts, q ∈ u.subterms)
    (fits : ∀ q ∈ ts, ∀ e ∈ plan q, e.Fits q) (listed : t ∈ ts) (inside : x ∈ t.ids)
    (here : Once (fun e => e.Covers u x) (plan t)) :
    Once (fun e => e.Covers u x) (ts.flatMap plan) := by
  obtain ⟨before, after, rfl⟩ := List.append_of_mem listed
  apply here.flatMap
  intro other among e planned covers
  have known : other ∈ before ++ t :: after := by
    simp only [List.mem_append, List.mem_cons] at among ⊢
    tauto
  exact Tree.not_mem_others apart inside among
    (covers.inside distinct (fits other known e planned) (within other known))

theorem spreadOver_covers (distinct : u.ids.Nodup) {block s : Tree} (moves : v.moves o block = true)
    (listed : s ∈ block.statements) (member : s ∈ u.subterms) (bare : s.kind ≠ .identifier v.name)
    (free : Tree.FreeUse v.name s x) (alive : ∀ e ∈ v.spreadOver o s, ¬ e.Consumes u x)
    (inner : ∀ r ∈ s.receivers, r.isBlock = true → Tree.FreeUse v.name r x →
      (∀ e ∈ v.spread o r, ¬ e.Consumes u x) → Once (fun e => e.Covers u x) (v.spread o r)) :
    Once (fun e => e.Covers u x) (v.spreadOver o s) := by
  rw [spreadOver] at alive ⊢
  cases fold : v.headerFold? o s with
  | some e =>
    rw [fold] at alive
    exact .single (header_covers fold member free (alive e (by simp)))
  | none =>
    rw [fold] at alive
    have confined := Tree.confines_of_handsOn (Bool.and_eq_true_iff.mp moves).1 listed free.uses
    obtain ⟨r, received, isBlock, freeBelow⟩ :=
      Tree.free_receiver free bare confined (noHeader_of_moves moves listed free.uses fold)
    have apart := (distinct.sublist (Tree.ids_sublist member)).sublist (Tree.ids_receivers s)
    refine once_flatMap distinct apart (fun q received => ?_) (fun q _ e planned => ?_) received
      freeBelow.mem_ids (inner r received isBlock freeBelow fun e planned => ?_)
    · exact Term.subterms_trans (Term.receiver_mem_subterms received) member
    · exact (spread_fits planned).1
    · exact alive e (List.mem_flatMap.mpr ⟨r, received, planned⟩)

/-- Each use that is not folded away is covered by exactly one edit. -/
theorem spread_covers (distinct : u.ids.Nodup)
    (bare : ∀ n ∈ u.subterms, ∀ s ∈ Tree.statements n, s.kind ≠ .identifier v.name) {block : Tree}
    (member : block ∈ u.subterms) (shape : block.isBlock = true)
    (free : Tree.FreeUse v.name block x) (alive : ∀ e ∈ v.spread o block, ¬ e.Consumes u x) :
    Once (fun e => e.Covers u x) (v.spread o block) := by
  induction block using Term.inductSmaller with
  | step block smaller =>
    obtain ⟨l, k⟩ := block
    cases k with
    | block ss =>
      obtain ⟨s, child, freeIn⟩ := free.child (by simp [Term.kind])
      have listed : s ∈ ss := by simpa [Term.children, Term.kind] using child
      rw [spread_eq] at alive ⊢
      have statements : Tree.statements (.node l (.block ss)) = ss := rfl
      rw [statements] at alive ⊢
      cases found : ss.find? (Term.uses v.name) with
      | none => exact absurd freeIn.uses (List.find?_eq_none.mp found s listed)
      | some point =>
        rw [found] at alive
        simp only at alive ⊢
        cases moves : v.moves o (.node l (.block ss)) with
        | false =>
          simp only [moves, Bool.false_eq_true, if_false, List.mem_singleton, forall_eq] at alive ⊢
          obtain ⟨-, before, after, split, unused⟩ := List.find?_eq_some_iff_append.mp found
          have later : s ∈ point :: after := by
            rw [split, List.mem_append] at listed
            refine listed.resolve_left fun early => ?_
            have none := unused s early
            rw [freeIn.uses] at none
            cases none
          exact .single (point_covers member split later freeIn alive)
        | true =>
          simp only [moves, if_true] at alive ⊢
          have inTree (q : Tree) (among : q ∈ ss) : q ∈ u.subterms :=
            Term.subterms_trans (Term.child_mem_subterms (by simpa [Term.children, Term.kind] using among))
              member
          have apart : (ss.flatMap Tree.ids).Nodup := by
            have own := distinct.sublist (Tree.ids_sublist member)
            rw [Tree.ids_block] at own
            exact own.of_cons
          refine once_flatMap distinct apart inTree (fun q _ e planned => spreadOver_fits planned) listed
            freeIn.mem_ids (spreadOver_covers distinct moves listed (inTree s listed)
              (bare _ member s listed) freeIn (fun e planned => ?_) fun r received isBlock => ?_)
          · exact alive e (List.mem_flatMap.mpr ⟨s, listed, planned⟩)
          · exact smaller r
              ((Term.size_receiver_lt received).trans (Term.size_lt_of_mem_children child))
              (Term.subterms_trans (Term.receiver_mem_subterms received) (inTree s listed)) isBlock
    | _ => cases shape

end LocalVariable

end LocalScope
