import LocalScope.Proofs.Applying
import LocalScope.Proofs.Locality

/-! Edits are not seen by the flow walk: an inserted declaration changes nothing, and a declaration
in the place of an assignment assigns what the assignment did. -/
namespace LocalScope

namespace Flow

variable {name : String}

@[simp] theorem walk_withNote (p : Position) (t : Tree) (note : Annotation) (s : Bool) :
    walk name p (t.withNote note) s = walk name p t s := by
  obtain ⟨l, k⟩ := t
  have same : walk name p (.node { l with note } (k.map fun c => c)) = walk name p (.node l k) :=
    walk_map l { l with note } k fun part _ => ⟨fun _ => rfl, rfl, rfl, fun _ => rfl⟩
  rw [Kind.map_eq_self k fun _ _ => rfl] at same
  exact congrFun same s

theorem walk_inserted (p : Patch) (s : Bool) : walk name .statement p.inserted s = idle s := rfl

theorem walk_folded (p : Patch) (note : Annotation) (memberId : Option MemberId) (value : Tree)
    (s : Bool) :
    walk name .statement (p.folded note memberId value) s =
      if p.edit.name == name then (walk name .expression value s).resume true
      else walk name .expression value s := by
  simp only [Patch.folded, Patch.declares, walk, walkBindings, walk_withNote]
  exact andThen_idle _

theorem breaksOut_inserted (p : Patch) : p.inserted.breaksOut = false := by
  simp [Patch.inserted, Patch.declares, Term.breaksOut_node, Kind.map, Term.breaksAt,
    Term.catchesBreaks, Kind.isLoop, Kind.children, Kind.slots, Slot.children]

theorem breaksOut_folded (p : Patch) (note : Annotation) (memberId : Option MemberId) (value : Tree) :
    (p.folded note memberId value).breaksOut = value.breaksOut := by
  have noted (note : Annotation) : (value.withNote note).breaksOut = value.breaksOut := by
    obtain ⟨l, k⟩ := value
    rw [Term.breaksOut_node]
    exact Term.breaksOut_node _ k
  rw [← noted ⟨p.edit.variableId, memberId⟩, Patch.folded]
  simp only [Patch.declares, Term.breaksOut_node, Kind.map, Term.breaksAt, Term.catchesBreaks,
    Kind.isLoop, Kind.children, Kind.slots, List.map_cons, List.map_nil, Option.map_some]
  simp [Slot.children]

theorem alike_folded {t r x v v' : Tree} {p : Patch} (found : t.assignment? = some r)
    (shape : r.kind = .assignment .plain x v) (named : x.isIdentifier p.edit.name = true)
    (note : Annotation) (memberId : Option MemberId) (value : Alike name .expression v v') :
    Alike name .statement t (p.folded note memberId v') := by
  obtain ⟨lr, kr⟩ := r
  obtain ⟨lx, kx⟩ := x
  rw [Term.kind] at shape
  obtain rfl : kx = .identifier p.edit.name := Term.isIdentifier_iff.mp named
  subst shape
  have walked (q : Position) (s : Bool) :
      walk name .statement (p.folded note memberId v') s =
        walk name q (.node lr (.assignment .plain (.node lx (.identifier p.edit.name)) v)) s := by
    rw [walk_folded, value.walk]
    by_cases same : p.edit.name = name
    · cases q <;> simp [walk, same, Term.isIdentifier, Term.kind, resume]
    · have other : (⟨s, p.edit.name == name && !s⟩ : Flow) = idle s := by simp [idle, same]
      cases q <;> simp [walk, same, Term.isIdentifier, Term.kind, other, idle_andThen]
  have breaks : (p.folded note memberId v').breaksOut =
      (Term.node lr (.assignment .plain (.node lx (.identifier p.edit.name)) v)).breaksOut := by
    rw [breaksOut_folded, value.breaks]
    simp [Term.breaksOut_node, Kind.map, Term.breaksAt, Term.catchesBreaks, Kind.isLoop,
      Kind.children, Kind.slots, Slot.children]
  obtain ⟨-, rfl | around⟩ := Term.assignment?_cases found
  · exact ⟨walked .statement, rfl, breaks, fun _ => rfl⟩
  · obtain ⟨lt, kt⟩ := t
    rw [Term.kind] at around
    subst around
    refine ⟨fun s => ?_, rfl, ?_, fun _ => rfl⟩
    · rw [walked .expression]
      rfl
    · rw [breaks, Term.breaksOut_node lt]
      simp [Kind.map, Term.breaksAt, Term.catchesBreaks, Kind.isLoop, Kind.children, Kind.slots,
        Slot.children]

theorem walkAll_inserted {ts : List Tree} (inserted : ∀ t ∈ ts, ∃ p : Patch, t = p.inserted)
    (s : Bool) : walkAll name .statement ts s = idle s := by
  apply walkAll_idle
  intro t listed
  obtain ⟨p, rfl⟩ := inserted t listed
  exact walk_inserted p s

theorem walkAll_rebuildAll {ps : List Patch} {ss : List Tree}
    (alike : ∀ s ∈ ss, Alike name .statement s (s.rebuild ps)) :
    walkAll name .statement (Tree.rebuildAll ps ss) = walkAll name .statement ss := by
  induction ss with
  | nil => rfl
  | cons s ss ih =>
    funext start
    have before : walkAll name .statement (Tree.insertions ps s.id) start = idle start := by
      refine walkAll_inserted (fun t listed => ?_) start
      obtain ⟨p, -, rfl⟩ := List.mem_map.mp listed
      exact ⟨p, rfl⟩
    rw [Tree.rebuildAll_cons, walkAll_append, before, idle_andThen, walkAll, walkAll,
      (alike s (by simp)).walk, ih fun r later => alike r (by simp [later])]

theorem alike_rebuildAll {ps : List Patch} {l : Label} {ss : List Tree}
    (alike : ∀ s ∈ ss, Alike name .statement s (s.rebuild ps)) :
    Alike name .statement (.node l (.block ss)) (.node l (.block (Tree.rebuildAll ps ss))) := by
  refine ⟨fun s => congrFun (walkAll_rebuildAll alike) s, rfl, ?_, fun _ => rfl⟩
  have block (ts : List Tree) :
      (Term.node l (.block ts)).breaksOut = ts.any Term.breaksOut := by
    simp [Term.breaksOut_node, Kind.map, Term.breaksAt, Term.catchesBreaks, Kind.isLoop]
  rw [block, block]
  induction ss with
  | nil => rfl
  | cons s ss ih =>
    have before : (Tree.insertions ps s.id).any Term.breaksOut = false := by
      simp [Tree.insertions, breaksOut_inserted]
    rw [Tree.rebuildAll_cons, List.any_append, before, List.any_cons, List.any_cons,
      (alike s (by simp)).breaks, ih fun r later => alike r (by simp [later]), Bool.false_or]

end Flow

namespace Term

variable {ℓ : Type} {k : Kind (Term ℓ)}

/-- What the walk may meet as an expression: an expression, or a binding of a declaration. -/
def walkedAsExpression (k : Kind (Term ℓ)) : Bool := k.isExpression || Place.binding.admits k

/-- Whether expressions stand wherever the walk expects some. Where it expects statements, anything
may stand. -/
def expressionsInPlace (t : Term ℓ) : Bool :=
  t.subterms.all fun n => n.kind.places.all fun (inner, c) =>
    inner.position == .statement || walkedAsExpression c.kind

theorem expressionsInPlace_iff {t : Term ℓ} :
    t.expressionsInPlace = true ↔ ∀ n ∈ t.subterms, ∀ part ∈ n.kind.places,
      part.1.position = .expression → walkedAsExpression part.2.kind = true := by
  have position (p : Position) : (p == .statement) = false ↔ p = .expression := by cases p <;> simp
  simp only [expressionsInPlace, List.all_eq_true, Bool.or_eq_true, ← position,
    Bool.eq_false_iff, ne_eq]
  exact forall₄_congr fun _ _ _ _ => or_iff_not_imp_left

theorem expressionsInPlace_below {t n : Term ℓ} (ordered : t.expressionsInPlace = true)
    (member : n ∈ t.subterms) : n.expressionsInPlace = true :=
  expressionsInPlace_iff.mpr fun m below =>
    expressionsInPlace_iff.mp ordered m (subterms_trans below member)

theorem walkedAsExpression_of_admits {place : Place} (admitted : place.admits k = true)
    (position : place.position = .expression) : walkedAsExpression k = true := by
  cases place with
  | expression => simpa [walkedAsExpression] using .inl admitted
  | binding => simpa [walkedAsExpression] using .inr admitted
  | _ => cases position

theorem expressionsInPlace_of_wellPlaced {t : Term ℓ} {place : Place}
    (placed : t.wellPlaced place = true) : t.expressionsInPlace = true := by
  refine expressionsInPlace_iff.mpr fun n member part listed position => ?_
  obtain ⟨inner, placed⟩ := wellPlaced_below placed member
  obtain ⟨l, k⟩ := n
  have below := (wellPlaced_iff.mp placed).2 part listed
  obtain ⟨place, l', k'⟩ := part
  exact walkedAsExpression_of_admits (wellPlaced_iff.mp below).1 position

/- The parts of a node are walked as their places say, unless the node is walked as an expression
without being one. -/
theorem place_of_part {p : Position} (own : p = .expression → walkedAsExpression k = true)
    {part : Position × Term ℓ} (listed : part ∈ k.parts p) :
    ∃ inner, (inner, part.2) ∈ k.places ∧ inner.position = part.1 := by
  cases p with
  | statement =>
    obtain ⟨⟨inner, c⟩, known, rfl⟩ := List.mem_map.mp listed
    exact ⟨inner, known, rfl⟩
  | expression =>
    have shape : k.places = k.children.map (.expression, ·) := by
      have admitted := own rfl
      cases k <;> first | rfl | cases admitted
    obtain ⟨c, child, rfl⟩ := List.mem_map.mp listed
    exact ⟨.expression, by rw [shape]; exact List.mem_map_of_mem child, rfl⟩

end Term

namespace Tree

theorem foldedBy?_assignment {ps : List Patch} {t r : Tree} (found : t.assignment? = some r) :
    foldedBy? ps r = foldedBy? ps t := by
  obtain ⟨⟨op, x, v, shape⟩, -⟩ := Term.assignment?_cases found
  have own : r.assignment? = some r := by simp only [Term.assignment?, shape]
  rw [foldedBy?, foldedBy?, found, own]

theorem wellPlaced_value {t r x v : Tree} {op : AssignOp} {place : Place}
    (placed : t.wellPlaced place = true) (found : t.assignment? = some r)
    (shape : r.kind = .assignment op x v) : v.wellPlaced .expression = true := by
  obtain ⟨lr, kr⟩ := r
  rw [Term.kind] at shape
  subst shape
  have inside {place : Place}
      (placed : (Term.node lr (.assignment op x v)).wellPlaced place = true) :
      v.wellPlaced .expression = true :=
    (Term.wellPlaced_iff.mp placed).2 (.expression, v)
      (by simp [Kind.places, Kind.children, Kind.slots, Slot.children])
  obtain ⟨-, rfl | around⟩ := Term.assignment?_cases found
  · exact inside placed
  · obtain ⟨lt, kt⟩ := t
    rw [Term.kind] at around
    subst around
    exact inside ((Term.wellPlaced_iff.mp placed).2 (.expression, _)
      (by simp [Kind.places, Kind.children, Kind.slots, Slot.children]))

theorem header_part {l : Label} {s r body : Tree} {cond : Option Tree} {update : List Tree}
    (distinct : (ids (.node l (.forLoop [s] cond update body))).Nodup)
    (part : r ∈ cond.toList ++ update ++ [body]) : r ≠ s := by
  rintro rfl
  rw [ids_node, List.nodup_cons] at distinct
  have apart : (r.ids ++ (cond.toList ++ update ++ [body]).flatMap ids).Nodup := by
    simpa [Kind.children, Kind.slots, Slot.children] using distinct.2
  exact (List.nodup_append.mp apart).2.2 _ (id_mem_ids r) _
    (List.mem_flatMap.mpr ⟨r, part, id_mem_ids r⟩) rfl

theorem position_of_entry {n c : Tree} (distinct : n.ids.Nodup) (entry : c ∈ n.entries)
    {place : Place} (listed : (place, c) ∈ n.kind.places) : place.position = .statement := by
  obtain ⟨l, k⟩ := n
  rcases List.mem_append.mp entry with inBlock | only
  · have shape : k = .block k.statements := Term.kind_of_statement inBlock
    rw [Term.kind, shape] at listed
    obtain ⟨s, -, same⟩ := List.mem_map.mp listed
    cases same
    rfl
  · obtain ⟨cond, update, body, shape⟩ := Term.onlyInit?_eq_some.mp (Option.mem_toList.mp only)
    rw [Term.kind] at shape
    subst shape
    have elsewhere (within : c ∈ cond.toList ++ update ++ [body]) : False :=
      header_part distinct within rfl
    simp only [Term.kind, Kind.places, List.map_cons, List.map_nil, List.mem_append, List.mem_cons,
      List.not_mem_nil, or_false, List.mem_map, Prod.mk.injEq] at listed
    rcases listed with ((⟨rfl, -⟩ | ⟨d, within, -, rfl⟩) | ⟨d, within, rfl, rfl⟩) | ⟨rfl, rfl⟩
    · rfl
    · exact (elsewhere (by simp [Option.mem_toList.mp within])).elim
    · rfl
    · rfl

end Tree

namespace Applied

variable {u : Tree} {size : Nat} {ps : List Patch} {a : Arena}

theorem folded_at (applied : Applied u size ps a) {t r : Tree} {p : Patch} (member : t ∈ u.subterms)
    (found : t.assignment? = some r) (folded : Tree.folding? ps r.id = some p) :
    ∃ x v, r.kind = .assignment .plain x v ∧ x.isIdentifier p.edit.name = true := by
  obtain ⟨n, member', s, entry, r', found', same, shape⟩ := applied.folded_entry folded
  obtain rfl : r' = r := List.inj_on_of_nodup_map applied.distinct
    (Term.subterms_trans (Term.mem_subterms_of_child (Term.entry_mem_children entry)
      (Term.assignment?_mem_subterms found')) member')
    (Term.subterms_trans (Term.assignment?_mem_subterms found) member) same
  exact shape

theorem value_unfolded (applied : Applied u size ps a) {r x v : Tree} {op : AssignOp}
    (member : r ∈ u.subterms) (shape : r.kind = .assignment op x v) : Tree.foldedBy? ps v = none := by
  by_contra folded
  obtain ⟨p, folded⟩ := Option.ne_none_iff_exists'.mp folded
  have child : v ∈ r.children := by
    simp [Term.children, shape, Kind.children, Kind.slots, Slot.children]
  rcases applied.folded_child member child folded with entry | assigned
  · simp [Term.entries, shape, Kind.statements, Term.onlyInit?] at entry
  · obtain rfl : r = v := by simpa [Term.assignment?, shape] using assigned
    exact absurd (Term.size_lt_of_mem_children child) (Nat.lt_irrefl _)

/-- A walk cannot tell a statement or an expression from what the edits make of it. Only where
statements stand can something have been folded. -/
theorem alike_inPlace (applied : Applied u size ps a) (name : String) {t : Tree}
    (member : t ∈ u.subterms) (ordered : t.expressionsInPlace = true) {p : Position}
    (own : p = .expression → Term.walkedAsExpression t.kind = true)
    (entry : ∀ q, Tree.foldedBy? ps t = some q → p = .statement) :
    Flow.Alike name p t (t.rebuild ps) := by
  induction t using Term.inductSmaller generalizing p with
  | step t smaller =>
    obtain ⟨l, k⟩ := t
    have below {inner : Place} {c : Tree} (part : (inner, c) ∈ k.places)
        (entry : ∀ q, Tree.foldedBy? ps c = some q → inner.position = .statement) :
        Flow.Alike name inner.position c (Tree.rebuild ps c) := by
      have child := Term.child_of_place part
      have inside : c ∈ (Term.node l k).subterms := Term.child_mem_subterms child
      exact smaller c (Term.size_lt_of_mem_children (t := .node l k) child)
        (Term.subterms_trans inside member) (Term.expressionsInPlace_below ordered inside)
        (Term.expressionsInPlace_iff.mp ordered _ (Term.self_mem_subterms _) _ part) entry
    rcases Tree.rebuild_cases ps l k with ⟨ss, rfl, made⟩ | ⟨-, unfolded, made⟩ |
      ⟨q, r, op, x, v, found, shape, folded, made⟩
    · obtain rfl : p = .statement := by
        cases p with
        | statement => rfl
        | expression => cases own rfl
      rw [made]
      exact Flow.alike_rebuildAll fun s listed => below (List.mem_map_of_mem listed) fun _ _ => rfl
    · rw [made]
      refine Flow.Alike.node l l k fun part listed => ?_
      obtain ⟨inner, known, same⟩ := Term.place_of_part own listed
      rw [← same]
      refine below known fun q folded => ?_
      rcases applied.folded_child member (Term.child_of_place known) folded with entry | assigned
      · exact Tree.position_of_entry (applied.distinct.sublist (Tree.ids_sublist member)) entry known
      · rw [Tree.foldedBy?_assignment assigned, unfolded] at folded
        cases folded
    · have position := entry q (Option.bind_eq_some_iff.mpr ⟨r, found, folded⟩)
      obtain ⟨x', v', shape', named⟩ := applied.folded_at member found folded
      rw [shape', Kind.assignment.injEq] at shape
      obtain ⟨rfl, rfl, rfl⟩ := shape
      rw [made, position]
      refine Flow.alike_folded found shape' named _ _ ?_
      have inValue := Tree.value_mem_subterms found shape'
      have assigned := Term.assignment?_mem_subterms found
      refine smaller v' (Tree.size_value_lt found shape') (Term.subterms_trans inValue member)
        (Term.expressionsInPlace_below ordered inValue) (fun _ => ?_) fun q refolded => ?_
      · refine Term.expressionsInPlace_iff.mp ordered r assigned (.expression, v') ?_ rfl
        simp [shape', Kind.places, Kind.children, Kind.slots, Slot.children]
      · rw [applied.value_unfolded (Term.subterms_trans assigned member) shape'] at refolded
        cases refolded

theorem alike (applied : Applied u size ps a) (name : String) {t : Tree} (member : t ∈ u.subterms)
    {place : Place} (placed : t.wellPlaced place = true)
    (entry : ∀ p, Tree.foldedBy? ps t = some p → place.position = .statement) :
    Flow.Alike name place.position t (t.rebuild ps) := by
  refine applied.alike_inPlace name member (Term.expressionsInPlace_of_wellPlaced placed) ?_ entry
  obtain ⟨l, k⟩ := t
  exact Term.walkedAsExpression_of_admits (Term.wellPlaced_iff.mp placed).1

end Applied

end LocalScope
