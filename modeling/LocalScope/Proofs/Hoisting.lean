import LocalScope.Proofs.Closing
import LocalScope.Proofs.Reports

/-! The switch for loops, on and off. A block that hands a variable on with loops closed does so with
loops open too. Where only the closed loops keep it from handing the variable on, it declares the
variable before the first use, in front of everything that the open loops would have been given. So a
declaration that closed loops put somewhere else is further out, with the former one in its scope. -/
namespace LocalScope

/-- The same options but for the switch. -/
def Options.loops (o : Options) (intoLoops : Bool) : Options := { o with intoLoops }

namespace Term

variable {ℓ : Type} {name : String}

theorem confines_mono {t : Term ℓ} (confined : t.confines name false = true) :
    t.confines name true = true := by
  rw [confines] at confined ⊢
  split at confined
  · cases confined
  · exact confined

theorem confines_absorbable {t r x : Term ℓ} {intoLoops : Bool}
    (absorbs : t.absorbable? name = some (r, x)) : t.confines name intoLoops = false := by
  obtain ⟨value, found, shape, named, -⟩ := absorbable?_eq_some.mp absorbs
  have assigned : r.uses name = true := uses_of_writes (by simp only [writes, shape, named])
  have noHeader : t.headerValue? name = none := by
    obtain ⟨l, k⟩ := t
    cases k <;> first | rfl | cases found
  have exposed {c : Term ℓ} (child : c ∈ t.children) (used : c.uses name = true)
      (block : c.isBlock = false) (bare : c.kind.holdsBlocks = false) :
      t.children.all (leavesToBlocks name) = false := by
    rw [List.all_eq_false]
    exact ⟨c, child, by simp [leavesToBlocks, used, block, bare]⟩
  have outside : t.children.all (leavesToBlocks name) = false := by
    obtain ⟨-, rfl | around⟩ := assignment?_cases found
    · have target := isIdentifier_iff.mp named
      refine exposed (c := x) (by simp [children, shape, Kind.children, Kind.slots, Slot.children])
        ?_ (by rw [isBlock, target]; rfl) (by rw [target]; rfl)
      obtain ⟨l, k⟩ := x
      obtain rfl : k = _ := target
      simp [uses_node, usesAt, Kind.map]
    · exact exposed (c := r) (by simp [children, around, Kind.children, Kind.slots, Slot.children])
        assigned (by rw [isBlock, shape]; rfl) (by rw [shape]; rfl)
  rw [confines, noHeader, outside]
  split <;> rfl

end Term

theorem Tree.handsOn_mono {name : String} {ss : List Tree} (hands : handsOn name false ss = true) :
    handsOn name true ss = true := by
  induction ss with
  | nil => rfl
  | cons s rest ih =>
    rw [handsOn, Bool.and_eq_true] at hands ⊢
    refine ⟨?_, ih hands.2⟩
    rcases Bool.or_eq_true_iff.mp hands.1 with unused | confined
    · rw [unused]
      rfl
    · rw [Bool.and_eq_true] at confined
      rw [Term.confines_mono confined.1, confined.2]
      simp

/-- An edit is made at or after the statement that another one is to insert a declaration before. -/
def Edit.Precedes (u : Tree) (e' e : Edit) : Prop :=
  ∃ m ∈ u.subterms, ∃ before point after, Tree.statements m = before ++ point :: after ∧
    e'.site = .before (Tree.id point) ∧ ∃ s ∈ point :: after, e.Fits s

namespace LocalVariable

variable {o : Options} {v : LocalVariable} {b m : Tree} {e : Edit}

theorem moves_mono (moves : v.moves (o.loops false) m = true) : v.moves (o.loops true) m = true := by
  rw [LocalVariable.moves, Bool.and_eq_true] at moves ⊢
  exact ⟨Tree.handsOn_mono moves.1, moves.2⟩

theorem uses_of_spread (planned : e ∈ v.spread o b) : ∃ s ∈ b.statements, s.uses v.name = true := by
  rw [spread_eq] at planned
  cases found : b.statements.find? (Term.uses v.name) with
  | none =>
    rw [found] at planned
    cases planned
  | some point => exact ⟨point, List.mem_of_find?_eq_some found, List.find?_some found⟩

theorem uses_of_spreadOver {s : Tree} (passes : v.passesOn o b = true) (listed : s ∈ b.statements)
    (visible : ∀ c ∈ s.subterms, Term.hides v.name c.kind = false) (planned : e ∈ v.spreadOver o s) :
    s.uses v.name = true := by
  rw [spreadOver] at planned
  cases folds : v.headerFold? o s with
  | some e' => exact (FoldsAt.header passes listed folds).not_leaves.1
  | none =>
    rw [folds] at planned
    obtain ⟨r, received, planned⟩ := List.mem_flatMap.mp planned
    obtain ⟨s', inside, used⟩ := uses_of_spread planned
    exact Term.uses_of_subterm visible (Term.subterms_trans
      (Term.child_mem_subterms (Term.statement_mem_children inside))
      (Term.receiver_mem_subterms received)) used

/-- With loops closed the edit is planned too, or a declaration is planned there in front of it. -/
def Hoists (o : Options) (v : LocalVariable) (b : Tree) (e : Edit) : Prop :=
  e ∈ v.spread (o.loops false) b ∨ ∃ e' ∈ v.spread (o.loops false) b, Edit.Precedes b e' e

theorem hoists_passed {s : Tree} (passes : v.passesOn (o.loops false) b = true)
    (listed : s ∈ b.statements) (planned : e ∈ v.spreadOver (o.loops true) s)
    (inner : ∀ r ∈ s.receivers, e ∈ v.spread (o.loops true) r → v.Hoists o r e) : v.Hoists o b e := by
  have carried {e : Edit} (planned : e ∈ v.spreadOver (o.loops false) s) :
      e ∈ v.spread (o.loops false) b := by
    rw [spread_passed passes]
    exact List.mem_flatMap.mpr ⟨s, listed, planned⟩
  have same : v.headerFold? (o.loops true) s = v.headerFold? (o.loops false) s := rfl
  rw [spreadOver, same] at planned
  cases folds : v.headerFold? (o.loops false) s with
  | some e' =>
    rw [folds] at planned
    exact .inl (carried (by rw [spreadOver, folds]; exact planned))
  | none =>
    rw [folds] at planned
    obtain ⟨r, received, planned⟩ := List.mem_flatMap.mp planned
    have onward {e : Edit} (planned : e ∈ v.spread (o.loops false) r) :
        e ∈ v.spread (o.loops false) b :=
      carried (by rw [spreadOver, folds]; exact List.mem_flatMap.mpr ⟨r, received, planned⟩)
    rcases inner r received planned with kept | ⟨e', planned', m, within, rest⟩
    · exact .inl (onward kept)
    · exact .inr ⟨e', onward planned', m, Term.subterms_trans within (Term.mem_subterms_of_child
        (Term.statement_mem_children listed) (Term.receiver_mem_subterms received)), rest⟩

/- Where only closed loops keep the variable, its first use is no assignment, so that a declaration is
inserted there. -/
theorem insertBefore_of_kept {point : Tree} (opened : v.moves (o.loops true) b = true)
    (closed : v.moves (o.loops false) b = false)
    (found : b.statements.find? (Term.uses v.name) = some point) :
    v.insertBefore point ∈ v.spread (o.loops false) b := by
  have declares : v.declaresAt? (o.loops false) b = some point := by
    rw [declaresAt?, closed]
    exact found
  have unfolded : v.pointFold? (o.loops false) point = none := by
    by_contra folds
    obtain ⟨e', folds⟩ := Option.ne_none_iff_exists'.mp folds
    obtain ⟨entry, r, x, absorbs, -, ⟨-, rfl⟩ | ⟨same, -⟩⟩ := (FoldsAt.point declares folds).absorbs
    · rw [LocalVariable.moves, Bool.and_eq_true] at opened
      have confined := Tree.confines_of_handsOn opened.1 (point_mem declares) (List.find?_some found)
      rw [Term.confines_absorbable absorbs] at confined
      cases confined
    · have less := Term.size_lt_of_mem_children (Term.statement_mem_children (point_mem declares))
      rw [same] at less
      omega
  rw [spread_declared declares, declareAt, unfolded]
  exact List.mem_singleton_self _

theorem spread_hoists (visible : ∀ c ∈ b.subterms, Term.hides v.name c.kind = false)
    (planned : e ∈ v.spread (o.loops true) b) : v.Hoists o b e := by
  induction b using Term.inductSmaller with
  | step b smaller =>
    have any : (Tree.statements b).any (Term.uses v.name) = true :=
      List.any_eq_true.mpr (uses_of_spread planned)
    cases opened : v.moves (o.loops true) b with
    | false =>
      have closed : v.moves (o.loops false) b = false := by
        by_contra moves
        rw [moves_mono (by simpa using moves)] at opened
        cases opened
      rw [spread_eq, opened] at planned
      rw [Hoists, spread_eq, closed]
      exact .inl planned
    | true =>
      have passes : v.passesOn (o.loops true) b = true := by rw [passesOn, any, opened]; rfl
      rw [spread_passed passes] at planned
      obtain ⟨s, listed, planned⟩ := List.mem_flatMap.mp planned
      have child := Term.statement_mem_children listed
      have visible' : ∀ c ∈ s.subterms, Term.hides v.name c.kind = false :=
        fun c below => visible c (Term.mem_subterms_of_child child below)
      cases closed : v.moves (o.loops false) b with
      | true =>
        have passes' : v.passesOn (o.loops false) b = true := by rw [passesOn, any, closed]; rfl
        refine hoists_passed passes' listed planned fun r received => ?_
        exact smaller r ((Term.size_receiver_lt received).trans (Term.size_lt_of_mem_children child))
          fun c below => visible' c (Term.subterms_trans below (Term.receiver_mem_subterms received))
      | false =>
        obtain ⟨point, found⟩ := Option.isSome_iff_exists.mp
          (List.find?_isSome.mpr (List.any_eq_true.mp any))
        obtain ⟨-, before, after, split, early⟩ := List.find?_eq_some_iff_append.mp found
        refine .inr ⟨v.insertBefore point, insertBefore_of_kept opened closed found, b,
          Term.self_mem_subterms b, before, point, after, split, rfl, s, ?_, spreadOver_fits planned⟩
        rw [split, List.mem_append] at listed
        refine listed.resolve_left fun first => ?_
        have unused := early s first
        rw [uses_of_spreadOver passes (by rw [split]; simp [first]) visible' planned] at unused
        cases unused

end LocalVariable

namespace Tree

/-- A node lists a declaration behind so many statements. Declarations without a value do not count,
since any number of them may have been put there. -/
def ListsBehind (n d : Tree) (rank : Nat) : Prop :=
  ∃ before after, n.kind.listing = before ++ d :: after ∧
    (before.filter fun s => !isUninitialized s).length = rank

/-- Declarations in two versions of a body, each with the node that lists it, stand at the same
place. -/
def SamePlace (n d n' d' : Tree) : Prop :=
  id n' = id n ∧ d'.isUninitialized = d.isUninitialized ∧
    ∃ rank, n.ListsBehind d rank ∧ n'.ListsBehind d' rank

variable {ps : List Patch} {p : Patch} {n d h s : Tree} {first last : List Tree}

theorem listing_nodup (distinct : n.ids.Nodup) : n.kind.listing.Nodup := by
  obtain ⟨l, k⟩ := n
  have part : k.listing.Sublist k.children := by
    cases k with
    | block ss => simp [Kind.listing]
    | forLoop init cond update body => simp [Kind.listing, Kind.children, Kind.slots, Slot.children]
    | _ => exact List.nil_sublist _
  rw [ids_node, List.nodup_cons] at distinct
  exact (List.Nodup.of_map id (distinct.2.sublist (map_id_sublist _))).sublist part

theorem ListsBehind.mem_children {rank : Nat} (lists : n.ListsBehind d rank) : d ∈ n.children := by
  obtain ⟨before, after, split, -⟩ := lists
  exact Kind.mem_children_of_listing (by simp [split])

theorem ListsBehind.unique {rank rank' : Nat} (distinct : n.ids.Nodup) (lists : n.ListsBehind d rank)
    (again : n.ListsBehind d rank') : rank = rank' := by
  obtain ⟨before, after, split, rfl⟩ := lists
  obtain ⟨before', after', split', rfl⟩ := again
  have once := listing_nodup distinct
  rw [split, List.nodup_append, List.nodup_cons] at once
  have earlier : d ∉ before := fun early => once.2.2 d early d List.mem_cons_self rfl
  rw [((List.append_cons_inj_of_notMem earlier once.2.1.1).mp (split.symm.trans split')).1]

theorem initialized_insertions (ps : List Patch) (x : NodeId) :
    ((insertions ps x).filter fun s => !isUninitialized s) = [] := by
  rw [List.filter_eq_nil_iff]
  intro d listed
  obtain ⟨p, -, rfl⟩ := List.mem_map.mp listed
  have valueless : p.inserted.isUninitialized = true := rfl
  simp [valueless]

theorem length_rebuildAll (ps : List Patch) {ss : List Tree} (plain : ∀ s ∈ ss, s.isDeclaration = false) :
    ((rebuildAll ps ss).filter fun s => !isUninitialized s).length = ss.length := by
  induction ss with
  | nil => rfl
  | cons s rest ih =>
    have stays := isUninitialized_rebuild ps (plain s List.mem_cons_self)
    rw [rebuildAll_cons, List.filter_append, initialized_insertions, List.nil_append,
      List.filter_cons_of_pos (by simp [stays]),
      List.length_cons, ih fun r later => plain r (List.mem_cons_of_mem s later), List.length_cons]

end Tree

structure Edit.Divides (e : Edit) (h : Tree) (first : List Tree) (s : Tree) (last : List Tree) :
    Prop where
  split : h.kind.listing = first ++ s :: last
  entry : s ∈ h.entries
  site : (s ∈ h.statements ∧ e.site = .before s.id) ∨
    ∃ r, s.assignment? = some r ∧ e.site = .inPlaceOf (Tree.id r)

theorem Edit.At.divides {e : Edit} {h : Tree} (at' : e.At h) :
    ∃ first s last, e.Divides h first s last := by
  have listed {s : Tree} (entry : s ∈ h.entries) : s ∈ h.kind.listing := by
    rcases List.mem_append.mp entry with listed | only
    · rw [Term.kind_of_statement listed]
      exact listed
    · obtain ⟨cond, update, body, shape⟩ := Term.onlyInit?_eq_some.mp (by simpa using only)
      rw [shape]
      exact List.mem_singleton_self s
  rcases at' with ⟨s, mine, site⟩ | ⟨s, entry, r, found, site, -⟩
  · have entry : s ∈ h.entries := List.mem_append_left _ mine
    obtain ⟨first, last, split⟩ := List.append_of_mem (listed entry)
    exact ⟨first, s, last, split, entry, .inl ⟨mine, site⟩⟩
  · obtain ⟨first, last, split⟩ := List.append_of_mem (listed entry)
    exact ⟨first, s, last, split, entry, .inr ⟨r, found, site⟩⟩

/- A site is told by how much comes before it and by what is to be done there. -/
theorem Edit.Divides.site_eq {e e' : Edit} {h s s' : Tree} {first last first' last' : List Tree}
    (divides : e.Divides h first s last) (divides' : e'.Divides h first' s' last')
    (rank : first.length = first'.length) (same : e.isInsertion = e'.isInsertion) :
    e.site = e'.site := by
  obtain ⟨rfl, tails⟩ := List.append_inj (divides.split.symm.trans divides'.split) rank
  obtain ⟨rfl, -⟩ := List.cons.inj tails
  rcases divides.site with ⟨-, site⟩ | ⟨r, found, site⟩
  · rcases divides'.site with ⟨-, site'⟩ | ⟨r', -, site'⟩
    · rw [site, site']
    · rw [isInsertion, isInsertion, site, site'] at same
      cases same
  · rcases divides'.site with ⟨-, site'⟩ | ⟨r', found', site'⟩
    · rw [isInsertion, isInsertion, site, site'] at same
      cases same
    · obtain rfl := Option.some.inj (found.symm.trans found')
      rw [site, site']

namespace Tree

variable {ps : List Patch} {p : Patch} {h s : Tree} {first last : List Tree}

theorem Made.listsBehind (made : Made ps p) (divides : p.edit.Divides h first s last)
    (plain : ∀ s ∈ h.statements, s.isDeclaration = false) :
    ∃ note inner init, (rebuild ps h).ListsBehind (p.declares note inner init) first.length ∧
      (p.declares note inner init).isUninitialized = p.edit.isInsertion := by
  obtain ⟨l, k⟩ := h
  have behind (before : List Tree) (split : (rebuild ps (.node l k)).kind.listing =
      before ++ rebuild ps s :: rebuildAll ps last)
      (length : (before.filter fun s => !isUninitialized s).length = first.length) {r : Tree}
      (found : s.assignment? = some r) (site : p.edit.site = .inPlaceOf r.id) :
      ∃ note inner init,
        (rebuild ps (.node l k)).ListsBehind (p.declares note inner init) first.length ∧
        (p.declares note inner init).isUninitialized = p.edit.isInsertion := by
    obtain ⟨⟨op, y, v, shape⟩, -⟩ := Term.assignment?_cases found
    rw [rebuild_folded ps found shape (made.chosen site)] at split
    exact ⟨_, _, _, ⟨before, _, split, length⟩, by rw [Edit.isInsertion, site]; rfl⟩
  rcases Socket.of_listing divides.entry divides.split with rfl | ⟨rfl, rfl, cond, update, body, rfl⟩
  · have stands := length_rebuildAll ps fun r earlier =>
      plain r (List.mem_append_left (s :: last) earlier)
    have inserted := initialized_insertions ps s.id
    have listing : (rebuild ps (.node l ((Socket.block first last).fill s))).kind.listing =
        (rebuildAll ps first ++ insertions ps s.id) ++ rebuild ps s :: rebuildAll ps last := by
      rw [Socket.rebuild_fill]
      rfl
    rcases divides.site with ⟨-, site⟩ | ⟨r, found, site⟩
    · have mine : p.inserted ∈ insertions ps s.id :=
        List.mem_map_of_mem (List.mem_filter.mpr ⟨made.mem, by simpa using site⟩)
      obtain ⟨own, more, among⟩ := List.append_of_mem mine
      refine ⟨{}, { variableId := p.edit.variableId }, none,
        ⟨rebuildAll ps first ++ own, more ++ rebuild ps s :: rebuildAll ps last, ?_, ?_⟩, ?_⟩
      · rw [listing, among]
        simp [Patch.inserted]
      · rw [among, List.filter_append, List.append_eq_nil_iff] at inserted
        rw [List.filter_append, inserted.1, List.append_nil, stands]
      · rw [Edit.isInsertion, site]
        rfl
    · exact behind _ listing (by rw [List.filter_append, inserted, List.append_nil, stands]) found site
  · rcases divides.site with ⟨none, -⟩ | ⟨r, found, site⟩
    · cases none
    · refine behind [] ?_ rfl found site
      rw [Socket.rebuild_fill]
      rfl

end Tree

namespace Applied

variable {t h s : Tree} {size : Nat} {ps : List Patch} {p q : Patch} {a : Arena}
  {first last : List Tree}

theorem stands (applied : Applied (Term.strip t) size ps a) (made : Tree.Made ps p)
    (holder : h ∈ (Term.strip t).subterms) (divides : p.edit.Divides h first s last) :
    ∃ n ∈ (Tree.rebuild ps (Term.strip t)).subterms, Tree.id n = h.id ∧
      ∃ note inner init, Tree.ListsBehind n (p.declares note inner init) first.length ∧
        (p.declares note inner init).isUninitialized = p.edit.isInsertion := by
  have entry := divides.entry
  have kept := Tree.foldedBy?_of_entry ps entry
  obtain ⟨note, image⟩ := Tree.rebuild_mem_of_entry applied.foldsVariables holder entry
  obtain ⟨outer, inner, init, lists, valueless⟩ :=
    made.listsBehind divides fun s listed => Tree.isDeclaration_of_strip holder listed
  refine ⟨_, image, ?_, outer, inner, init, lists, valueless⟩
  exact (Tree.id_withNote note _).trans (congrArg Label.id (Tree.label_rebuild ps kept))

theorem site_of_declaration (applied : Applied (Term.strip t) size ps a) (made : Tree.Made ps p)
    (made' : Tree.Made ps q) (same : p.declaration = q.declaration) : p.edit.site = q.edit.site := by
  obtain ⟨h, holder, at'⟩ := applied.fits p made.mem
  obtain ⟨h', holder', at''⟩ := applied.fits q made'.mem
  obtain ⟨first, s, last, divides⟩ := at'.divides
  obtain ⟨first', s', last', divides'⟩ := at''.divides
  obtain ⟨n, left, number, note, inner, init, lists, valueless⟩ :=
    applied.stands made holder divides
  obtain ⟨n', left', number', note', inner', init', lists', valueless'⟩ :=
    applied.stands made' holder' divides'
  have inTree {n d : Tree} (left : n ∈ (Tree.rebuild ps (Term.strip t)).subterms)
      (child : d ∈ n.children) : d ∈ (Tree.rebuild ps (Term.strip t)).subterms :=
    Term.subterms_trans (Term.child_mem_subterms child) left
  have equal : p.declares note inner init = q.declares note' inner' init' :=
    applied.holds.eq_of_id (inTree left lists.mem_children) (inTree left' lists'.mem_children) same
  rw [← equal] at lists' valueless'
  obtain rfl := Tree.parent_unique applied.holds.distinct left left' lists.mem_children
    lists'.mem_children
  obtain rfl : h = h' :=
    List.inj_on_of_nodup_map applied.distinct holder holder' (number.symm.trans number')
  exact divides.site_eq divides'
    (lists.unique (applied.holds.distinct.sublist (Tree.ids_sublist left)) lists')
    (valueless.symm.trans valueless')

end Applied

namespace Edit.Precedes

variable {u h : Tree} {e e' : Edit} {x : NodeId}

theorem covers (precedes : Precedes u e' e) (distinct : u.ids.Nodup) (covers : e.Covers u x) :
    e'.Covers u x := by
  obtain ⟨m, member, before, point, after, split, site, s, later, fits⟩ := precedes
  have listed : s ∈ Tree.statements m := by
    rw [split]
    exact List.mem_append_right _ later
  have inTree := Term.subterms_trans
    (Term.child_mem_subterms (Term.statement_mem_children listed)) member
  exact .insertion member split site later (covers.inside distinct fits inTree)

theorem covers_holder (precedes : Precedes u e' e) (distinct : u.ids.Nodup)
    (holder : h ∈ u.subterms) (at' : e.At h) : e'.Covers u h.id := by
  obtain ⟨m, member, before, point, after, split, site, s, later, n, below, other⟩ := precedes
  have listed : s ∈ Tree.statements m := by
    rw [split]
    exact List.mem_append_right _ later
  have inTree := Term.subterms_trans
    (Term.child_mem_subterms (Term.statement_mem_children listed)) member
  obtain rfl := at'.holder_unique distinct holder (Term.subterms_trans below inTree) other
  exact .insertion member split site later (Tree.ids_subset below (Tree.id_mem_ids h))

end Edit.Precedes

theorem Tree.plan_hoists {o : Options} {t : Tree} {e : Edit} (sound : t.Sound)
    (visible : ∀ c ∈ t.subterms, Term.hides e.name c.kind = false)
    (planned : e ∈ t.plan (o.loops true)) :
    e ∈ t.plan (o.loops false) ∨
      ∃ e' ∈ t.plan (o.loops false), e'.name = e.name ∧ e'.Precedes (Term.strip t) e := by
  obtain ⟨n, member, v, mine, planned⟩ := mem_plan.mp planned
  have named : e.name = v.name := (LocalVariable.spread_fits planned).2.2
  rw [named] at visible ⊢
  have visible' : ∀ c ∈ (Term.strip n).subterms, Term.hides v.name c.kind = false := by
    intro c below
    obtain ⟨c, within, rfl⟩ := mem_subterms_strip below
    rw [Term.hides_strip, visible c (Term.subterms_trans within member)]
  rcases LocalVariable.spread_hoists visible' planned with kept | ⟨e', planned', m, below, rest⟩
  · exact .inl (mem_plan.mpr ⟨n, member, v, mine, kept⟩)
  · obtain ⟨d, listed, -⟩ := List.mem_filterMap.mp mine
    have shape : n.kind = .block (statements n) := Term.kind_of_statement listed
    have inTree := strip_mem_subterms sound member (by rw [isDeclarative, shape])
    exact .inr ⟨e', mem_plan.mpr ⟨n, member, v, mine, planned'⟩,
      (LocalVariable.spread_fits planned').2.2, m, Term.subterms_trans below inTree, rest⟩

def Pass.loops (p : Pass) (intoLoops : Bool) : Pass := { p with options := p.options.loops intoLoops }

namespace Editing.Placed

variable {o : Options} {t h s : Tree} {a b : Arena} {ps : List Patch} {stats : Stats} {p : Patch}
  {first last : List Tree}

theorem declares_there (placed : Placed o t a ps stats b) (held : a.Holds t) (made : Tree.Made ps p)
    (holder : h ∈ (Term.strip t).subterms) (divides : p.edit.Divides h first s last) :
    ∃ n ∈ (Tree.rebuild ps (Term.strip t)).subterms, Tree.id n = h.id ∧ ∃ d,
      Tree.ListsBehind n d first.length ∧ d.isUninitialized = p.edit.isInsertion ∧
      Tree.id d ∉ t.ids ∧ Tree.id d = p.declaration ∧ d.declares p.edit.name = true ∧
      ∀ x, p.edit.Covers (Term.strip t) x → x ∈ Tree.ids (Tree.rebuild ps (Term.strip t)) →
        Tree.InScope (Tree.rebuild ps (Term.strip t)) d x := by
  obtain ⟨size, grown, applied⟩ := placed.applied
  obtain ⟨n, left, number, note, inner, init, lists, valueless⟩ :=
    applied.stands made holder divides
  refine ⟨n, left, number, _, lists, valueless, fun old => ?_, rfl, ?_, fun x covers known => ?_⟩
  · have fresh := applied.fresh _ (Tree.added_of_mem made.mem).1
    have bound : p.declaration.index < a.size := held.index_lt old
    omega
  · simp [Patch.declares, Tree.declares, Term.kind, Tree.binds]
  · obtain ⟨note', inner', init', inScope⟩ := applied.inScope_of_covers made covers known
    have same := applied.holds.eq_of_id inScope.mem_subterms
      (Term.subterms_trans (Term.child_mem_subterms lists.mem_children) left) rfl
    rwa [same] at inScope

theorem covers_of_scope (placed : Placed o t a ps stats b) (held : a.Holds t) (made : Tree.Made ps p)
    {d : Tree} {x : NodeId} (number : d.id = p.declaration) (known : x ∈ t.ids)
    (inScope : Tree.InScope (Tree.rebuild ps (Term.strip t)) d x) :
    p.edit.Covers (Term.strip t) x := by
  obtain ⟨size, grown, applied⟩ := placed.applied
  have fresh {y : NodeId} (new : y ∈ Tree.added ps) (old : y ∈ t.ids) : False := by
    have bound := applied.fresh y new
    have small := held.index_lt old
    omega
  have left : x ∈ Tree.ids (Term.strip t) := by
    obtain ⟨n, inside, before, after, split, c, later, within⟩ := inScope
    have child : c ∈ n.children := by
      apply Kind.mem_children_of_listing
      rw [split, List.append_assoc, List.cons_append]
      exact List.mem_append_right _ (List.mem_cons_of_mem _ later)
    exact (Tree.mem_ids_rebuild (Tree.ids_subset inside (Tree.ids_child_subset child within))).resolve_right
      fun new => fresh new known
  rcases applied.covers_of_inScope inScope left with
    ⟨q, made', covers, note, inner, init, rfl⟩ | ⟨d', inScope', kept, rfl⟩
  · exact covers.congr (applied.site_of_declaration made made' number.symm)
  · have same : Tree.id (Tree.rebuild ps d') = d'.id := congrArg Label.id (Tree.label_rebuild ps kept)
    have old := Tree.ids_subset inScope'.mem_subterms (Tree.id_mem_ids d')
    rw [← same, number] at old
    exact (fresh (Tree.added_of_mem made.mem).1 ((Tree.ids_strip t).subset old)).elim

theorem holder_mem (placed : Placed o t a ps stats b) (holder : h ∈ (Term.strip t).subterms)
    (entry : s ∈ h.entries) : h.id ∈ Tree.ids (Tree.rebuild ps (Term.strip t)) := by
  obtain ⟨size, -, applied⟩ := placed.applied
  have kept := Tree.foldedBy?_of_entry ps entry
  obtain ⟨note, image⟩ := Tree.rebuild_mem_of_entry applied.foldsVariables holder entry
  have number : ((Tree.rebuild ps h).withNote note).id = h.id :=
    (Tree.id_withNote note _).trans (congrArg Label.id (Tree.label_rebuild ps kept))
  exact number ▸ Tree.ids_subset image (Tree.id_mem_ids _)

theorem stands_new (placed : Placed o t a ps stats b) {n d : Tree}
    (left : n ∈ (Tree.rebuild ps (Term.strip t)).subterms) (child : d ∈ n.children)
    (new : d.id ∉ t.ids) (declaration : d.isDeclaration = true) :
    ∃ q, Tree.Made ps q ∧ d.id = q.declaration ∧ (∀ name, d.declares name = true → q.edit.name = name) ∧
      ∃ h ∈ (Term.strip t).subterms, q.edit.At h ∧ Tree.id h = n.id ∧
        ∃ first s last, q.edit.Divides h first s last ∧ n.ListsBehind d first.length ∧
          d.isUninitialized = q.edit.isInsertion := by
  obtain ⟨size, -, applied⟩ := placed.applied
  obtain ⟨-, q, made, h, holder, at', number, outer, inner, init, rfl⟩ :=
    placed.declared_by left child new declaration
  obtain ⟨first, s, last, divides⟩ := at'.divides
  obtain ⟨n', left', number', note', inner', init', lists, valueless⟩ :=
    applied.stands made holder divides
  obtain rfl : n' = n := applied.holds.eq_of_id left' left (number'.trans number)
  have same : q.declares note' inner' init' = q.declares outer inner init :=
    applied.holds.eq_of_id (Term.subterms_trans (Term.child_mem_subterms lists.mem_children) left')
      (Term.subterms_trans (Term.child_mem_subterms child) left) rfl
  rw [same] at lists valueless
  refine ⟨q, made, rfl, fun name declares => ?_, h, holder, at', number, first, s, last, divides, lists,
    valueless⟩
  simpa [Patch.declares, Tree.declares, Term.kind, Tree.binds] using declares

theorem hoists {b' : Arena} {ps' : List Patch} {stats' : Stats}
    (placed : Placed (o.loops true) t a ps stats b)
    (placed' : Placed (o.loops false) t a ps' stats' b') (held : a.Holds t) (sound : t.Sound)
    {n d : Tree} {name : String} (unbound : ∀ c ∈ t.subterms, Term.hides name c.kind = false)
    (left : n ∈ (Tree.rebuild ps (Term.strip t)).subterms) (child : d ∈ n.children)
    (new : d.id ∉ t.ids) (declares : d.declares name = true) :
    ∃ n' ∈ (Tree.rebuild ps' (Term.strip t)).subterms, ∃ d' ∈ n'.children,
      Tree.id d' ∉ t.ids ∧ Tree.declares name d' = true ∧
      (Tree.SamePlace n d n' d' ∨ (Tree.rebuild ps' (Term.strip t)).InScope d' n.id) ∧
      ∀ x ∈ t.ids, (Tree.rebuild ps (Term.strip t)).InScope d x →
        x ∈ (Tree.rebuild ps' (Term.strip t)).ids → (Tree.rebuild ps' (Term.strip t)).InScope d' x := by
  obtain ⟨size, -, applied⟩ := placed.applied
  obtain ⟨size', -, applied'⟩ := placed'.applied
  obtain ⟨q, made, number, named, h, holder, at', top, first, s, last, divides, lists, valueless⟩ :=
    placed.stands_new left child new (Tree.isDeclaration_of_declares declares)
  obtain rfl := named name declares
  rcases Tree.plan_hoists sound unbound (placed.edit_mem_plan made.mem) with
    kept | ⟨e, planned, same, precedes⟩
  · obtain ⟨q', made', site, same⟩ := placed'.made_named sound kept
    have divides' : q'.edit.Divides h first s last :=
      ⟨divides.split, divides.entry, by rw [site]; exact divides.site⟩
    obtain ⟨n', left', top', d', lists', valueless', new', -, declares', scope⟩ :=
      placed'.declares_there held made' holder divides'
    refine ⟨n', left', d', lists'.mem_children, new', same ▸ declares',
      .inl ⟨top'.trans top, ?_, first.length, lists, lists'⟩, fun x known inScope still => ?_⟩
    · rw [valueless', valueless, Edit.isInsertion, Edit.isInsertion, site]
    · exact scope x ((placed.covers_of_scope held made number known inScope).congr site) still
  · obtain ⟨q', made', site, same'⟩ := placed'.made_named sound planned
    obtain ⟨h', holder', at''⟩ := applied'.fits q' made'.mem
    obtain ⟨first', s', last', divides'⟩ := at''.divides
    obtain ⟨n', left', -, d', lists', -, new', -, declares', scope⟩ :=
      placed'.declares_there held made' holder' divides'
    refine ⟨n', left', d', lists'.mem_children, new', (same'.trans same) ▸ declares', .inr ?_,
      fun x known inScope still => ?_⟩
    · rw [← top]
      exact scope _ ((precedes.covers_holder applied.distinct holder at').congr site)
        (placed'.holder_mem holder divides.entry)
    · exact scope x ((precedes.covers applied.distinct
        (placed.covers_of_scope held made number known inScope)).congr site) still

end Editing.Placed

/-- Closed loops move declarations outwards only. For each declaration of a name that a run makes with
loops open there is one that it makes with loops closed, either at the same place or with the node
that lists the former in its scope; and all that the former has in its scope is in the scope of the
latter, if it is still there. This holds of names that no for-each and no catch clause binds, however
often they are declared. -/
theorem Pass.loops_only_hoist (p : Pass) {body : Body} {root : NodeId} {before : Arena} {count : Nat}
    (lowered : Arena.ofBody body = (root, before))
    (accepted : before.countDeclarations root = .ok count) {name : String}
    (unbound : ∀ c ∈ (before.view root).subterms, Term.hides name c.kind = false) :
    ∃ opened closed,
      ((p.loops true).run root before).2 = .ok () opened ∧
      ((p.loops false).run root before).2 = .ok () closed ∧
      ∀ n ∈ (opened.view root).subterms, ∀ d ∈ n.children,
        Tree.id d ∉ (before.view root).ids → Tree.declares name d = true →
        ∃ n' ∈ (closed.view root).subterms, ∃ d' ∈ n'.children,
          Tree.id d' ∉ (before.view root).ids ∧ Tree.declares name d' = true ∧
          (Tree.SamePlace n d n' d' ∨ (closed.view root).InScope d' (Tree.id n)) ∧
          ∀ x ∈ (before.view root).ids, (opened.view root).InScope d x →
            x ∈ (closed.view root).ids → (closed.view root).InScope d' x := by
  obtain ⟨held, sound, ps, stats, opened, ran, placed, output⟩ :=
    (p.loops true).placed_of_count lowered accepted
  obtain ⟨-, -, ps', stats', closed, ran', placed', output'⟩ :=
    (p.loops false).placed_of_count lowered accepted
  refine ⟨opened, closed, by rw [ran], by rw [ran'], ?_⟩
  rw [output, output']
  exact fun n left d child new declares =>
    placed.hoists placed' held sound unbound left child new declares

/- With loops open the declaration is in the body of the loop, and with loops closed it is before the
loop. -/
theorem Pass.loops_only_hoist_looping :
    let root := (Arena.ofBody .looping).1
    let before := (Arena.ofBody .looping).2
    let opened := ((Pass.loops {} true).outcome root before).view root
    let closed := ((Pass.loops {} false).outcome root before).view root
    (∃ n ∈ opened.subterms, ∃ d ∈ n.children, Tree.id d ∉ (before.view root).ids ∧
      Tree.declares "v" d = true) ∧
    ∀ n ∈ opened.subterms, ∀ d ∈ n.children, Tree.id d ∉ (before.view root).ids →
      Tree.declares "v" d = true →
      ∃ n' ∈ closed.subterms, ∃ d' ∈ n'.children, Tree.id d' ∉ (before.view root).ids ∧
        Tree.declares "v" d' = true ∧ (Tree.SamePlace n d n' d' ∨ closed.InScope d' (Tree.id n)) := by
  intro root before opened closed
  have accepted : before.countDeclarations root = .ok 1 := by decide +kernel
  have unbound := Tree.unbound_looping
  rw [← Arena.view_looping] at unbound
  have lowered : Arena.ofBody .looping = (root, before) := Prod.mk.eta.symm
  obtain ⟨a, b, ran, ran', hoists⟩ := Pass.loops_only_hoist {} lowered accepted unbound
  have done : ((Pass.loops {} true).run root before).2 = .ok () _ :=
    Pass.run_outcome (by decide +kernel)
  have done' : ((Pass.loops {} false).run root before).2 = .ok () _ :=
    Pass.run_outcome (by decide +kernel)
  rw [done, EStateM.Result.ok.injEq] at ran
  rw [done', EStateM.Result.ok.injEq] at ran'
  rw [← ran.2, ← ran'.2] at hoists
  refine ⟨?_, fun n left d child new declares => ?_⟩
  · have found : (opened.subterms.any fun n => n.children.any fun d =>
        !(before.view root).ids.contains (Tree.id d) && Tree.declares "v" d) = true := by
      decide +kernel
    simpa using found
  · obtain ⟨n', left', d', child', new', declares', place, -⟩ := hoists n left d child new declares
    exact ⟨n', left', d', child', new', declares', place⟩

end LocalScope
