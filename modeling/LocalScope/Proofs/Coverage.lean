import LocalScope.Proofs.Covering
import LocalScope.Proofs.Snippets

namespace LocalScope

namespace Once

variable {α β : Type} {P : β → Prop}

theorem append_left {xs ys : List β} (once : Once P xs) (others : ∀ y ∈ ys, ¬ P y) :
    Once P (xs ++ ys) := by
  obtain ⟨before, x, after, rfl, holds, rest⟩ := once
  refine ⟨before, x, after ++ ys, by simp, holds, fun y member => ?_⟩
  rw [← List.append_assoc] at member
  exact (List.mem_append.mp member).elim (rest y) (others y)

theorem append_right {xs ys : List β} (others : ∀ x ∈ xs, ¬ P x) (once : Once P ys) :
    Once P (xs ++ ys) := by
  obtain ⟨before, y, after, rfl, holds, rest⟩ := once
  refine ⟨xs ++ before, y, after, by simp, holds, fun z member => ?_⟩
  rw [List.append_assoc] at member
  exact (List.mem_append.mp member).elim (others z) (rest z)

theorem exists_mem {xs : List β} (once : Once P xs) : ∃ x ∈ xs, P x := by
  obtain ⟨before, x, after, rfl, holds, -⟩ := once
  exact ⟨x, by simp, holds⟩

theorem eq_of_map {f : α → β} {xs : List β} {as : List α} (once : Once P xs)
    (among : (as.map f).Subperm xs) {p q : α} (first : p ∈ as) (second : q ∈ as) (ofFirst : P (f p))
    (ofSecond : P (f q)) : p = q := by
  classical
  have bound : (as.filter fun a => decide (P (f a))).length ≤ 1 := by
    obtain ⟨before, x, after, rfl, holds, rest⟩ := once
    have none (ys : List β) (inside : ys ⊆ before ++ after) : ys.filter (fun y => decide (P y)) = [] :=
      List.filter_eq_nil_iff.mpr fun y listed => by simpa using rest y (inside listed)
    have whole := (among.filter fun y => decide (P y)).length_le
    rw [List.filter_append, List.filter_cons, none before (by simp), none after (by simp),
      List.filter_map, List.length_map, Function.comp_def] at whole
    simpa [holds] using whole
  have inFirst : p ∈ as.filter fun a => decide (P (f a)) := List.mem_filter.mpr ⟨first, by simpa⟩
  have inSecond : q ∈ as.filter fun a => decide (P (f a)) := List.mem_filter.mpr ⟨second, by simpa⟩
  generalize (as.filter fun a => decide (P (f a))) = found at bound inFirst inSecond
  match found with
  | [] => cases inFirst
  | [a] => rw [List.mem_singleton.mp inFirst, List.mem_singleton.mp inSecond]
  | _ :: _ :: _ => simp at bound

end Once

namespace Tree

theorem FreeUse.strip {name : String} {t : Tree} {x : NodeId} (free : FreeUse name t x)
    (sound : t.Sound) : FreeUse name (Term.strip t) x := by
  induction free with
  | here l => exact .here l
  | @under l k c x visible child free ih =>
    have inner := ih (sound.child child)
    rw [Term.strip_withoutDeclarations]
    refine .under (c := Term.strip c) ?_ ?_ inner
    · cases k <;> exact visible
    · rw [Kind.children_map]
      apply List.mem_map_of_mem
      cases k with
      | block ss =>
        simp only [Term.withoutDeclarations, Kind.children_block, List.mem_filter] at child ⊢
        refine ⟨child, ?_⟩
        by_contra declares
        have strippable := sound _ (Term.self_mem_subterms _) c child
        obtain ⟨v, known⟩ := Option.isSome_iff_exists.mp (strippable (by simpa using declares))
        have used := free.uses
        rw [uses_local known] at used
        cases used
      | _ => exact child

end Tree

namespace Edit

variable {u : Tree} {e e' : Edit} {x : NodeId}

theorem Covers.congr (covers : e.Covers u x) (same : e'.site = e.site) : e'.Covers u x := by
  cases covers with
  | insertion member split site later inside =>
    exact .insertion member split (same.trans site) later inside
  | folding member entry split found site later inside =>
    exact .folding member entry split found (same.trans site) later inside

theorem Fits.name_eq (distinct : u.ids.Nodup) (first : e.Fits u) (second : e'.Fits u)
    (folding : e.isInsertion = false) (same : e'.site = e.site) : e'.name = e.name := by
  obtain ⟨n, inTree, at'⟩ := first
  obtain ⟨n', inTree', at''⟩ := second
  rcases at' with ⟨s, -, before⟩ | ⟨s, entry, r, found, site, y, v, shape, named⟩
  · rw [isInsertion, before] at folding
    cases folding
  · rcases at'' with ⟨s', -, before⟩ | ⟨s', entry', r', found', site', y', v', shape', named'⟩
    · rw [same, site] at before
      cases before
    · rw [same, site, Site.inPlaceOf.injEq] at site'
      have deep {n s r : Tree} (inTree : n ∈ u.subterms) (entry : s ∈ n.entries)
          (found : s.assignment? = some r) : r ∈ u.subterms :=
        Term.subterms_trans (Term.mem_subterms_of_child (Term.entry_mem_children entry)
          (Term.assignment?_mem_subterms found)) inTree
      have equal : r = r' := List.inj_on_of_nodup_map distinct (deep inTree entry found)
        (deep inTree' entry' found') site'
      subst equal
      rw [shape, Kind.assignment.injEq] at shape'
      obtain ⟨-, rfl, -⟩ := shape'
      have known := Term.isIdentifier_iff.mp named
      rw [Term.isIdentifier_iff.mp named', Kind.identifier.injEq] at known
      exact known

end Edit

namespace Tree

/-- A block with the only declaration of a name among all that enclose the block or lie below it. -/
structure Sole (t b d : Tree) (name : String) : Prop where
  member : b ∈ t.subterms
  listed : d ∈ b.statements
  named : d.declares name = true
  only : ∀ n ∈ t.subterms, n ∈ b.subterms ∨ b ∈ n.subterms → ∀ d' ∈ n.kind.listing,
    declares name d' = true → d' = d

variable {t b d : Tree} {name : String}

theorem sole_of_all (distinct : t.ids.Nodup) (member : b ∈ t.subterms) (listed : d ∈ b.statements)
    (named : d.declares name = true)
    (once : (t.subterms.all fun n => n.kind.listing.all fun d' =>
      !declares name d' || id d' == d.id) = true) : Sole t b d name where
  member := member
  listed := listed
  named := named
  only n inside _ d' mine declared := by
    have same := List.all_eq_true.mp (List.all_eq_true.mp once n inside) d' mine
    rw [declared, Bool.not_true, Bool.false_or, beq_iff_eq] at same
    have child : d' ∈ n.children := Kind.mem_children_of_listing (List.mem_append_left _ mine)
    exact List.inj_on_of_nodup_map distinct
      (Term.subterms_trans (Term.child_mem_subterms child) inside)
      (Term.subterms_trans (Term.child_mem_subterms (Term.statement_mem_children listed)) member) same

theorem declares_of_local {s : Tree} {w : LocalVariable} (known : s.local? = some w) :
    s.declares w.name = true := by
  obtain ⟨l, l', isFinal, rfl, -⟩ := eq_of_local known
  simp [declares, Term.kind, binds]

theorem name_of_declares {s : Tree} {w : LocalVariable} (known : s.local? = some w)
    (named : s.declares name = true) : w.name = name := by
  obtain ⟨l, l', isFinal, rfl, -⟩ := eq_of_local known
  simpa [declares, Term.kind, binds] using named

theorem isDeclaration_of_declares {d : Tree} (named : d.declares name = true) :
    d.isDeclaration = true := by
  rw [declares] at named
  rw [Term.isDeclaration]
  split at named
  · rename_i shape
    rw [shape]
  · cases named

theorem binds_strip (b : Tree) (name : String) : binds name (Term.strip b) = b.binds name := by
  obtain ⟨l, k⟩ := b
  rw [Term.strip_node]
  cases k <;> rfl

theorem declares_strip (d : Tree) (name : String) : declares name (Term.strip d) = d.declares name := by
  obtain ⟨l, k⟩ := d
  rw [Term.strip_node]
  cases k with
  | declaration ty bindings isFinal =>
    have same : binds name ∘ Term.strip = binds name := by
      funext b
      exact binds_strip b name
    simp only [declares, Term.kind, Kind.map, Term.withoutDeclarations, List.any_map, same]
  | _ => rfl

/- In a stripped tree only `for` headers still list declarations. -/
theorem listing_strip {n d : Tree} (listed : d ∈ (Term.strip n).kind.listing)
    (named : d.declares name = true) :
    n.kind.statements = [] ∧ ∃ d' ∈ n.kind.listing, declares name d' = true := by
  obtain ⟨l, k⟩ := n
  cases k with
  | block ss =>
    rw [Term.strip_block] at listed
    obtain ⟨s, kept, rfl⟩ := List.mem_map.mp listed
    have other := (List.mem_filter.mp kept).2
    rw [declares_strip] at named
    rw [isDeclaration_of_declares named] at other
    cases other
  | forLoop init cond update body =>
    rw [Term.strip_other _ _ rfl] at listed
    obtain ⟨d', mine, rfl⟩ := List.mem_map.mp listed
    exact ⟨rfl, d', mine, (declares_strip d' name).symm.trans named⟩
  | _ =>
    rw [Term.strip_other _ _ rfl] at listed
    cases listed

theorem bare_strip {t : Tree} (bare : ∀ n ∈ t.subterms, ∀ s ∈ statements n, s.kind ≠ .identifier name) :
    ∀ n ∈ (Term.strip t).subterms, ∀ s ∈ statements n, s.kind ≠ .identifier name := by
  intro m inside s listed shape
  obtain ⟨⟨l, k⟩, member, rfl⟩ := mem_subterms_strip inside
  cases k with
  | block ss =>
    rw [Term.strip_block] at listed
    obtain ⟨⟨l', k'⟩, kept, rfl⟩ := List.mem_map.mp listed
    refine bare (.node l (.block ss)) member _ (List.mem_filter.mp kept).1 ?_
    rw [Term.strip_node] at shape
    cases k' <;> first | exact shape | cases shape
  | _ =>
    rw [Term.strip_other _ _ rfl] at listed
    cases listed

theorem local_unique (sole : Sole t b d name) (distinct : t.ids.Nodup) {n s : Tree} {x : NodeId}
    (member : n ∈ t.subterms) (listed : s ∈ n.statements) {w : LocalVariable} (known : s.local? = some w)
    (named : w.name = name) (inFirst : x ∈ n.ids) (inSecond : x ∈ b.ids) : n = b ∧ s = d := by
  have shape : n.kind = .block n.statements := Term.kind_of_statement listed
  have equal : s = d := by
    apply sole.only n member (nested_of_common distinct member sole.member inFirst inSecond) s
    · rw [shape]
      exact listed
    · exact named ▸ declares_of_local known
  subst equal
  exact ⟨parent_unique distinct member sole.member (Term.statement_mem_children listed)
    (Term.statement_mem_children sole.listed), rfl⟩

theorem Sole.not_inScope (sole : Sole t b d name) (distinct : t.ids.Nodup) {x : NodeId}
    (known : x ∈ b.ids) {d' : Tree} (named : d'.declares name = true) :
    ¬ InScope (Term.strip t) d' x := by
  rintro ⟨m, below, before, after, split, c, later, inside⟩
  obtain ⟨n, member, rfl⟩ := mem_subterms_strip below
  obtain ⟨noBlock, d'', listed, named'⟩ := listing_strip (by rw [split]; simp) named
  have within : x ∈ ids n := by
    apply (ids_strip n).subset
    refine ids_child_subset (Kind.mem_children_of_listing ?_) inside
    rw [split, List.append_assoc, List.cons_append]
    exact List.mem_append_right _ (List.mem_cons_of_mem _ later)
  obtain rfl := sole.only n member (nested_of_common distinct member sole.member within known) d''
    listed named'
  obtain rfl := parent_unique distinct member sole.member
    (Kind.mem_children_of_listing (List.mem_append_left _ listed))
    (Term.statement_mem_children sole.listed)
  have none : d'' ∈ n.kind.statements := sole.listed
  rw [noBlock] at none
  cases none

theorem plan_origin {o : Options} (sole : Sole t b d name) (distinct : t.ids.Nodup) (sound : t.Sound)
    {r : Tree} (inside : r ∈ t.subterms) {e : Edit} (planned : e ∈ r.plan o) (named : e.name = name)
    {x : NodeId} (covers : e.Covers (Term.strip t) x) (known : x ∈ b.ids) :
    x ∈ r.ids ∧ b ∈ r.subterms ∧ ∃ v, d.local? = some v ∧ e ∈ v.spread o (Term.strip b) := by
  obtain ⟨n, below, w, mine, planned⟩ := mem_plan.mp planned
  obtain ⟨s, listed, isLocal⟩ := List.mem_filterMap.mp mine
  have inTree := Term.subterms_trans below inside
  have other : isDeclarative n = false := by
    have shape : n.kind = .block (statements n) := Term.kind_of_statement listed
    rw [isDeclarative, shape]
  obtain ⟨fits, -, same⟩ := LocalVariable.spread_fits planned
  have within := (ids_strip n).subset (covers.inside (distinct.sublist (ids_strip t)) fits
    (strip_mem_subterms sound inTree other))
  obtain ⟨rfl, rfl⟩ := local_unique sole distinct inTree listed isLocal (same.symm.trans named) within known
  exact ⟨ids_subset below within, below, w, isLocal, planned⟩

theorem locals_cover {o : Options} {v : LocalVariable} {x : NodeId} (sole : Sole t b d name)
    (distinct : t.ids.Nodup) (isLocal : d.local? = some v) (named : v.name = name) (known : x ∈ b.ids)
    (once : Once (fun e => e.Covers (Term.strip t) x) (v.spread o (Term.strip b))) :
    Once (fun e => e.name = name ∧ e.Covers (Term.strip t) x)
      ((locals b.statements).flatMap fun w => w.spread o (Term.strip b)) := by
  have mine : Once (fun e => e.name = name ∧ e.Covers (Term.strip t) x)
      (v.spread o (Term.strip b)) := by
    obtain ⟨before, e, after, edits, holds, rest⟩ := once
    have planned : e ∈ v.spread o (Term.strip b) := by simp [edits]
    have same := (LocalVariable.spread_fits planned).2.2
    exact ⟨before, e, after, edits, ⟨same.trans named, holds⟩, fun y other both =>
      rest y other both.2⟩
  have apart := nodup_statements (distinct.sublist (ids_sublist sole.member))
  have unique {s : Tree} (listed : s ∈ b.statements) {w : LocalVariable} (isLocal : s.local? = some w)
      (named : w.name = name) : s = d :=
    (local_unique sole distinct sole.member listed isLocal named known known).2
  obtain ⟨first, last, split⟩ := List.append_of_mem sole.listed
  have around : locals b.statements = locals first ++ v :: locals last := by
    simp [split, locals, isLocal]
  rw [around]
  refine Once.flatMap (f := fun w : LocalVariable => w.spread o (Term.strip b)) mine ?_
  rintro w other e planned ⟨called, -⟩
  obtain ⟨s, listed, isLocal'⟩ := List.mem_filterMap.mp
    (show w ∈ locals (first ++ last) by simpa [locals] using other)
  have same := (LocalVariable.spread_fits planned).2.2
  obtain rfl : s = d := by
    refine unique ?_ isLocal' (same.symm.trans called)
    rw [split]
    simp only [List.mem_append, List.mem_cons] at listed ⊢
    tauto
  rw [split, List.map_append, List.map_cons] at apart
  have apart := List.nodup_middle.mp apart
  rw [← List.map_append, List.nodup_cons] at apart
  exact apart.1 (List.mem_map_of_mem listed)

theorem plan_covers {o : Options} {v : LocalVariable} {x : NodeId} (sole : Sole t b d name)
    (distinct : t.ids.Nodup) (sound : t.Sound) (isLocal : d.local? = some v) (named : v.name = name)
    (known : x ∈ b.ids) (once : Once (fun e => e.Covers (Term.strip t) x) (v.spread o (Term.strip b)))
    {r : Tree} (inside : r ∈ t.subterms) (below : b ∈ r.subterms) :
    Once (fun e => e.name = name ∧ e.Covers (Term.strip t) x) (r.plan o) := by
  induction r using Term.inductChildren with
  | step l k ih =>
    have own := distinct.sublist (ids_sublist inside)
    have childIn {c : Tree} (child : c ∈ k.children) : c ∈ t.subterms :=
      Term.subterms_trans (Term.child_mem_subterms (t := .node l k) child) inside
    have notWithin {c : Tree} (child : c ∈ k.children) : Term.node l k ∉ c.subterms := by
      intro under
      have less := Term.size_lt_of_mem_children (t := .node l k) child
      have bound := Term.size_le_of_mem_subterms under
      omega
    rw [plan_node]
    rcases Term.mem_subterms_node.mp below with rfl | ⟨c, child, under⟩
    · refine Once.append_left (locals_cover sole distinct isLocal named known once) ?_
      rintro e planned ⟨called, covers⟩
      obtain ⟨c, child, planned⟩ := List.mem_flatMap.mp planned
      exact notWithin child
        (plan_origin sole distinct sound (childIn child) planned called covers known).2.1
    · refine Once.append_right ?_ ?_
      · rintro e planned ⟨called, -⟩
        obtain ⟨w, mine, planned⟩ := List.mem_flatMap.mp planned
        obtain ⟨s, listed, isLocal'⟩ := List.mem_filterMap.mp mine
        have same := (LocalVariable.spread_fits planned).2.2
        obtain ⟨rfl, -⟩ := local_unique sole distinct inside listed isLocal'
          (same.symm.trans called) (ids_subset below known) known
        exact notWithin child under
      · have inner := ih c child (childIn child) under
        have others (c' : Tree) (child' : c' ∈ k.children) := childIn child'
        rw [ids_node, List.nodup_cons] at own
        obtain ⟨before, after, split⟩ := List.append_of_mem child
        rw [split] at own others ⊢
        apply inner.flatMap
        rintro c' other e planned ⟨called, covers⟩
        have listed : c' ∈ before ++ c :: after := by
          simp only [List.mem_append, List.mem_cons] at other ⊢
          tauto
        obtain ⟨within, -⟩ :=
          plan_origin sole distinct sound (others c' listed) planned called covers known
        exact not_mem_others own.2 (ids_subset under known) other within

end Tree

namespace Editing.Placed

variable {o : Options} {t : Tree} {a b : Arena} {ps : List Patch} {stats : Stats}

theorem edit_mem_plan (placed : Placed o t a ps stats b) {p : Patch} (known : p ∈ ps) :
    p.edit ∈ t.plan o := by
  have among : p.edit ∈ Edit.carriedOut (t.plan o) :=
    placed.edits ▸ List.mem_map_of_mem known
  exact (Edit.carriedOut_subperm _).subset among

/-- What is planned is made, if not by this edit then by another one at its site. -/
theorem made (placed : Placed o t a ps stats b) {e : Edit} (planned : e ∈ t.plan o) :
    ∃ p, Tree.Made ps p ∧ p.edit.site = e.site ∧ (e.isInsertion = true → p.edit = e) := by
  cases insertion : e.isInsertion with
  | true =>
    have among : e ∈ ps.map Patch.edit := by
      rw [placed.edits]
      exact List.mem_append_left _ (List.mem_filter.mpr ⟨planned, insertion⟩)
    obtain ⟨p, known, rfl⟩ := List.mem_map.mp among
    exact ⟨p, .inl ⟨known, insertion⟩, rfl, fun _ => rfl⟩
  | false =>
    have covered : e.site ∈ [] ∨ ∃ e' ∈ Edit.effective [] (t.plan o), e'.site = e.site :=
      Edit.effective_covers planned insertion
    obtain ⟨e', effective, same⟩ := covered.resolve_left (by simp)
    have among : e' ∈ ps.map Patch.edit := by
      rw [placed.edits]
      exact List.mem_append_right _ effective
    obtain ⟨q, known, rfl⟩ := List.mem_map.mp among
    cases site : e.site with
    | before y =>
      rw [Edit.isInsertion, site] at insertion
      cases insertion
    | inPlaceOf y =>
      have folded : (Tree.folding? ps y).isSome = true :=
        List.find?_isSome.mpr ⟨q, known, by simp [same, site]⟩
      obtain ⟨p, found⟩ := Option.isSome_iff_exists.mp folded
      exact ⟨p, .inr ⟨y, found⟩, (Tree.folding?_mem found).2, fun no => by cases no⟩

theorem made_named (placed : Placed o t a ps stats b) (sound : t.Sound) {e : Edit}
    (planned : e ∈ t.plan o) :
    ∃ p, Tree.Made ps p ∧ p.edit.site = e.site ∧ p.edit.name = e.name := by
  obtain ⟨size, -, applied⟩ := placed.applied
  obtain ⟨p, made, site, same⟩ := placed.made planned
  refine ⟨p, made, site, ?_⟩
  cases insertion : e.isInsertion with
  | true => rw [same insertion]
  | false =>
    exact (Tree.plan_fits sound planned).name_eq applied.distinct
      (Tree.plan_fits sound (placed.edit_mem_plan made.mem)) insertion site

theorem consumed (placed : Placed o t a ps stats b) {e : Edit} (planned : e ∈ t.plan o) {x : NodeId}
    (consumes : e.Consumes (Term.strip t) x) : x ∉ (Tree.rebuild ps (Term.strip t)).ids := by
  obtain ⟨r, member, site, op, y, v, shape, target⟩ := consumes
  obtain ⟨size, -, applied⟩ := placed.applied
  obtain ⟨p, made, same, -⟩ := placed.made planned
  rw [site] at same
  have folded : Tree.folding? ps (Tree.id r) = some p := by
    rcases made with ⟨-, insertion⟩ | ⟨z, found⟩
    · rw [Edit.isInsertion, same] at insertion
      cases insertion
    · have known := (Tree.folding?_mem found).2
      rw [same, Site.inPlaceOf.injEq] at known
      exact known ▸ found
  have child : y ∈ r.children := by
    simp [Term.children, shape, Kind.children, Kind.slots, Slot.children]
  have inside : x ∈ Tree.ids r := Tree.ids_child_subset child target
  have old : x ∉ Tree.added ps := fun new => applied.unknown x new (Tree.ids_subset member inside)
  intro left
  have left := Tree.mem_ids_rebuild_below applied.distinct old member inside left
  have own : Term.assignment? r = some r := by simp only [Term.assignment?, shape]
  have fresh := Tree.added_of_mem (Tree.folding?_mem folded).1
  rw [Tree.rebuild_folded ps own shape folded, Patch.ids_folded, List.mem_cons, List.mem_cons] at left
  rcases left with rfl | rfl | left
  · exact old fresh.1
  · exact old fresh.2
  · exact Tree.assignment_apart (applied.distinct.sublist (Tree.ids_sublist member)) shape target
      ((Tree.mem_ids_rebuild left).resolve_right old)

theorem sole_scope (placed : Placed o t a ps stats b) (sound : t.Sound) (distinct : t.ids.Nodup)
    {block d : Tree} {name : String} {x : NodeId} (sole : Tree.Sole t block d name)
    (bare : ∀ n ∈ t.subterms, ∀ s ∈ Tree.statements n, s.kind ≠ .identifier name)
    (free : Tree.FreeUse name block x) (left : x ∈ (Tree.rebuild ps (Term.strip t)).ids)
    {v : LocalVariable} (isLocal : d.local? = some v) :
    ∃ (p : Patch) (note inner : Annotation) (init : Option Tree),
      p.edit.ty = v.ty ∧ p.edit.name = name ∧
      Tree.InScope (Tree.rebuild ps (Term.strip t)) (p.declares note inner init) x ∧
      ∀ d', Tree.InScope (Tree.rebuild ps (Term.strip t)) d' x → d'.declares name = true →
        d' = p.declares note inner init := by
  obtain ⟨size, -, applied⟩ := placed.applied
  obtain rfl : v.name = name := Tree.name_of_declares isLocal sole.named
  have shape : block.kind = .block block.statements := Term.kind_of_statement sole.listed
  have inside : Term.strip block ∈ (Term.strip t).subterms :=
    Tree.strip_mem_subterms sound sole.member (by rw [Tree.isDeclarative, shape])
  have isBlock : (Term.strip block).isBlock = true := by
    rw [Term.isBlock_strip, Term.isBlock, shape]
    rfl
  have free' := free.strip (sound.below sole.member)
  have mine : v ∈ Tree.locals block.statements := List.mem_filterMap.mpr ⟨d, sole.listed, isLocal⟩
  have alive (e : Edit) (planned : e ∈ v.spread o (Term.strip block)) :
      ¬ e.Consumes (Term.strip t) x := fun consumes =>
    placed.consumed (Tree.mem_plan.mpr ⟨block, sole.member, v, mine, planned⟩) consumes left
  have once := LocalVariable.spread_covers applied.distinct (Tree.bare_strip bare) inside isBlock
    free' alive
  have whole := Tree.plan_covers sole distinct sound isLocal rfl free.mem_ids once
    (Term.self_mem_subterms t) sole.member
  -- The one edit that covers the use, and the patch that carries it out.
  obtain ⟨e, planned, named, covers⟩ := whole.exists_mem
  obtain ⟨p, made, site, named'⟩ := placed.made_named sound planned
  rw [named] at named'
  have planned' := placed.edit_mem_plan made.mem
  have covers' := covers.congr site
  obtain ⟨-, -, w, isLocal', planned''⟩ := Tree.plan_origin sole distinct sound
    (Term.self_mem_subterms t) planned' named' covers' free.mem_ids
  obtain rfl : v = w := by simpa [isLocal] using isLocal'
  obtain ⟨note, inner, init, inScope⟩ := applied.inScope_of_covers made covers' left
  refine ⟨p, note, inner, init, (LocalVariable.spread_fits planned'').2.1, named', inScope, ?_⟩
  intro d' inScope' declares
  have old : x ∈ Tree.ids (Term.strip t) := Tree.ids_subset inside free'.mem_ids
  rcases applied.covers_of_inScope inScope' old with
    ⟨q, made', covers'', note', inner', init', rfl⟩ | ⟨d', inScope'', unfolded, rfl⟩
  · have named'' : q.edit.name = v.name := by
      simpa [Patch.declares, Tree.declares, Term.kind, Tree.binds] using declares
    have among : (ps.map Patch.edit).Subperm (t.plan o) :=
      placed.edits ▸ Edit.carriedOut_subperm _
    obtain rfl : p = q := whole.eq_of_map among made.mem made'.mem ⟨named', covers'⟩
      ⟨named'', covers''⟩
    exact applied.holds.eq_of_id inScope'.mem_subterms inScope.mem_subterms rfl
  · rw [Tree.declares_rebuild unfolded] at declares
    exact absurd inScope'' (sole.not_inScope distinct free.mem_ids declares)

end Editing.Placed

/-- Each use that a run leaves of a stripped variable is in the scope of exactly one declaration of
it, which has the type of the stripped one. -/
theorem Pass.use_in_one_scope {p : Pass} {body : Body} {root : NodeId} {before after : Arena}
    (lowered : Arena.ofBody body = (root, before)) (run : (p.run root before).2 = .ok () after)
    (bare : ∀ n ∈ (before.view root).subterms, ∀ s ∈ Tree.statements n, ∀ name,
      s.kind ≠ .identifier name)
    {block d use : Tree} {name : String} {ty : Ty} {bindings : List Tree} {isFinal : Bool}
    (sole : Tree.Sole (before.view root) block d name)
    (shape : d.kind = .declaration ty bindings isFinal)
    (below : use ∈ block.subterms) (identifier : use.kind = .identifier name)
    (visible : ∀ c ∈ block.subterms, Term.hides name c.kind = true → use ∉ c.subterms)
    (left : use.id ∈ (after.view root).ids) :
    ∃ d', Tree.InScope (after.view root) d' use.id ∧ d'.declares name = true ∧
      (∃ bindings isFinal, d'.kind = .declaration ty bindings isFinal) ∧
      ∀ other, Tree.InScope (after.view root) other use.id → other.declares name = true →
        other = d' := by
  obtain ⟨t, ps, stats, rfl, held, sound, placed, output⟩ := Pass.placed_of_body lowered run
  have free := Tree.FreeUse.of_identifier below identifier visible
  have strippable : d.Strippable :=
    sound block sole.member d sole.listed
  obtain ⟨v, isLocal⟩ := Option.isSome_iff_exists.mp
    (strippable (Tree.isDeclaration_of_declares sole.named))
  rw [output] at left ⊢
  obtain ⟨q, note, inner, init, typed, named, inScope, unique⟩ := placed.sole_scope sound
    held.distinct sole (fun n member s listed => bare n member s listed name) free left isLocal
  refine ⟨q.declares note inner init, inScope, ?_, ?_, unique⟩
  · simp [Patch.declares, Tree.declares, Term.kind, Tree.binds, named]
  · obtain ⟨l, l', isFinal', rfl, -⟩ := Tree.eq_of_local isLocal
    obtain ⟨rfl, -, -⟩ : v.ty = ty ∧ _ ∧ _ := by simpa [Term.kind] using shape
    exact ⟨_, _, by rw [← typed]; rfl⟩

/-- `int v; if (c) { v = 1; use(v); } if (c) { v = 1; use(v); }` -/
def Body.twice : Body :=
  .braces [.declareInt "v", .when "c" [.setOne "v", .use "v"], .when "c" [.setOne "v", .use "v"]]

def Tree.branchOfTwice (n : Nat) : Tree :=
  shown (n + 9) (.ifElse (shown n (.identifier "c"))
    (shown (n + 8) (.block [
      shown (n + 4) (.expressionStatement (shown (n + 3) (.assignment .plain
        (shown (n + 1) (.identifier "v")) (shown (n + 2) (.literal (.int 1)))))),
      shown (n + 7) (.expressionStatement (shown (n + 6)
        (.invocation none "use" [shown (n + 5) (.identifier "v")])))])) none)

def Tree.ofTwice : Tree :=
  shown 22 (.block [shown 1 (.declaration (.primitive .int) [shown 0 (.binding "v" none)] false),
    branchOfTwice 2, branchOfTwice 12])

theorem Arena.view_twice :
    (Arena.ofBody .twice).2.view (Arena.ofBody .twice).1 = Tree.ofTwice := by cbv

/- Each branch gets a declaration of its own; here is the one for the first call. -/
theorem Pass.use_in_one_scope_of_branch :
    ∃ d', Tree.InScope ((Pass.outcome {} (Arena.ofBody .twice).1 (Arena.ofBody .twice).2).view
        (Arena.ofBody .twice).1) d' ⟨7⟩ ∧ d'.declares "v" = true ∧
      (∃ bindings isFinal, d'.kind = .declaration (.primitive .int) bindings isFinal) ∧
      ∀ other, Tree.InScope ((Pass.outcome {} (Arena.ofBody .twice).1 (Arena.ofBody .twice).2).view
        (Arena.ofBody .twice).1) other ⟨7⟩ → other.declares "v" = true → other = d' := by
  have ran : (Pass.run {} (Arena.ofBody .twice).1 (Arena.ofBody .twice).2).2 = .ok () _ :=
    Pass.run_outcome (by decide +kernel)
  have bare : ∀ n ∈ Tree.ofTwice.subterms, ∀ s ∈ Tree.statements n, ∀ name,
      s.kind ≠ .identifier name := by
    have none : (Tree.ofTwice.subterms.all fun n => (Tree.statements n).all fun s =>
        s.kind.tag != .identifier) = true := by decide +kernel
    intro n member s listed name shape
    have other := List.all_eq_true.mp (List.all_eq_true.mp none n member) s listed
    rw [shape] at other
    cases other
  have sole : Tree.Sole Tree.ofTwice Tree.ofTwice
      (.shown 1 (.declaration (.primitive .int) [.shown 0 (.binding "v" none)] false)) "v" :=
    Tree.sole_of_all (by decide +kernel) (Term.self_mem_subterms _) List.mem_cons_self
      (by decide) (by decide +kernel)
  have below : Tree.shown 7 (.identifier "v") ∈ Tree.ofTwice.subterms := by
    simp [Tree.ofTwice, Tree.branchOfTwice, Tree.shown, Term.subterms_node, Kind.children,
      Kind.slots, Slot.children]
  have visible : ∀ c ∈ Tree.ofTwice.subterms, Term.hides "v" c.kind = true →
      Tree.shown 7 (.identifier "v") ∉ c.subterms := by
    have none : (Tree.ofTwice.subterms.all fun c => !Term.hides "v" c.kind) = true := by
      decide +kernel
    intro c member hidden
    have shown := List.all_eq_true.mp none c member
    rw [hidden] at shown
    cases shown
  rw [← Arena.view_twice] at bare sole below visible
  exact Pass.use_in_one_scope rfl ran bare sole rfl below rfl visible (by decide +kernel)

end LocalScope
