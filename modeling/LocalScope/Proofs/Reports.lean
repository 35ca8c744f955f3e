import LocalScope.Placement.Query
import LocalScope.Proofs.Coverage
import LocalScope.Proofs.Handing

namespace LocalScope

theorem Arena.holds_view {body : Body} {root : NodeId} {a : Arena}
    (lowered : Arena.ofBody body = (root, a)) : a.Holds (a.view root) := by
  obtain ⟨held, -⟩ := Arena.ofBody_holds body
  rwa [Arena.treeOfBody, lowered] at held

theorem Subject.exposed_eq {a : Arena} {n : Tree} (held : a.Holds n) (subject : Subject)
    (name : String) (block : subject.block = n.id) :
    subject.exposed a name =
      .ok (if (Flow.walkAll name .statement (subject.statements n) false).exposed then [name]
        else []) := by
  simp only [exposed, block, held.look_eq]
  rfl

theorem Subject.exposed_name {a : Arena} {n : Tree} (held : a.Holds n) (subject : Subject)
    (name : String) (block : subject.block = n.id) :
    subject.exposed a name = .ok [name] ↔
      (Flow.walkAll name .statement (subject.statements n) false).exposed = true := by
  rw [exposed_eq held subject name block]
  cases (Flow.walkAll name .statement (subject.statements n) false).exposed <;> simp

theorem Subject.exposed_nil {a : Arena} {n : Tree} (held : a.Holds n) (subject : Subject)
    (name : String) (block : subject.block = n.id) :
    subject.exposed a name = .ok [] ↔
      (Flow.walkAll name .statement (subject.statements n) false).exposed = false := by
  rw [exposed_eq held subject name block]
  cases (Flow.walkAll name .statement (subject.statements n) false).exposed <;> simp

namespace Tree

theorem statements_rebuild {ps : List Patch} {q : Tree} (block : q.isBlock = true) (note : Annotation) :
    ((rebuild ps q).withNote note).statements = rebuildAll ps q.statements := by
  obtain ⟨l, k⟩ := q
  cases k with
  | block ss =>
    rw [rebuild_block]
    rfl
  | _ => cases block

theorem isDeclaration_of_strip {t q s : Tree} (member : q ∈ (Term.strip t).subterms)
    (listed : s ∈ q.statements) : s.isDeclaration = false := by
  obtain ⟨⟨l, k⟩, -, rfl⟩ := mem_subterms_strip member
  cases k with
  | block ss =>
    rw [Term.strip_block] at listed
    obtain ⟨⟨l', k'⟩, kept, rfl⟩ := List.mem_map.mp listed
    have other := (List.mem_filter.mp kept).2
    rw [Term.strip_node]
    cases k' <;> first | rfl | cases other
  | _ =>
    rw [Term.strip_other _ _ rfl] at listed
    cases listed

/-- A declaration none of whose bindings has a value. -/
def isUninitialized (d : Tree) : Bool :=
  match d.kind with
  | .declaration _ bindings _ => bindings.all fun b =>
    match b.kind with
    | .binding _ (some _) => false
    | _ => true
  | _ => false

theorem isUninitialized_rebuild {s : Tree} (ps : List Patch) (other : s.isDeclaration = false) :
    (rebuild ps s).isUninitialized = false := by
  obtain ⟨l, k⟩ := s
  rcases rebuild_cases ps l k with ⟨ss, rfl, made⟩ | ⟨-, -, made⟩ |
    ⟨p, r, op, x, v, -, -, -, made⟩
  · rw [made]
    rfl
  · rw [made]
    cases k <;> first | rfl | cases other
  · rw [made]
    rfl

theorem isBlock_of_rebuild {ps : List Patch} {q d : Tree} {note : Annotation}
    (listed : d ∈ ((rebuild ps q).withNote note).statements) : q.isBlock = true := by
  obtain ⟨l, k⟩ := q
  rcases rebuild_cases ps l k with ⟨ss, rfl, made⟩ | ⟨-, -, made⟩ |
    ⟨p, r, op, x, v, -, -, -, made⟩
  · rfl
  · rw [made] at listed
    cases k <;> first | rfl | cases listed
  · rw [made] at listed
    cases listed

/-- A declaration without a value, in a block of the output, was inserted there. -/
theorem inserted_of_uninitialized {t n d : Tree} {ps : List Patch}
    (left : n ∈ (rebuild ps (Term.strip t)).subterms) (listed : d ∈ n.statements)
    (valueless : d.isUninitialized = true) :
    ∃ q ∈ (Term.strip t).subterms, ∃ note, n = (rebuild ps q).withNote note ∧ q.isBlock = true ∧
      ∃ s ∈ statements q, ∃ p ∈ ps, p.edit.site = .before s.id ∧ d = p.inserted := by
  rcases mem_subterms_rebuild left with ⟨q, inTree, unfolded, note, rfl⟩ | ⟨declarative, -⟩
  · have block := isBlock_of_rebuild listed
    refine ⟨q, inTree, note, rfl, block, ?_⟩
    rw [statements_rebuild block, mem_rebuildAll] at listed
    obtain ⟨s, mine, inserted | rfl⟩ := listed
    · obtain ⟨p, known, rfl⟩ := List.mem_map.mp inserted
      obtain ⟨known, site⟩ := List.mem_filter.mp known
      exact ⟨s, mine, p, known, by simpa using site, rfl⟩
    · rw [isUninitialized_rebuild ps (isDeclaration_of_strip inTree mine)] at valueless
      cases valueless
  · obtain ⟨l, k⟩ := n
    cases k with
    | block ss => cases declarative
    | _ => cases listed

end Tree

namespace Applied

variable {u q n s : Tree} {size : Nat} {ps : List Patch} {a : Arena} {p : Patch}

theorem walk_from_inserted (applied : Applied u size ps a) {name : String} {note : Annotation}
    (inTree : q ∈ u.subterms) (block : q.isBlock = true) (placed : q.wellPlaced .statement = true)
    {first last : List Tree} (split : q.statements = first ++ s :: last)
    (known : p ∈ ps) (site : p.edit.site = .before s.id)
    (left : (q.rebuild ps).withNote note ∈ (u.rebuild ps).subterms) :
    Flow.walkAll name .statement
        (((q.rebuild ps).withNote note).statementsFrom p.inserted.id) false =
      Flow.walkAll name .statement (s :: last) false := by
  have alike (r : Tree) (listed : r ∈ q.statements) :
      Flow.Alike name .statement r (r.rebuild ps) :=
    applied.alike name (Term.subterms_trans (Term.child_mem_subterms
        (Term.statement_mem_children listed)) inTree)
      (Term.placed_of_statement placed listed) fun _ _ => rfl
  have mine : p.inserted ∈ Tree.insertions ps s.id :=
    List.mem_map_of_mem (List.mem_filter.mpr ⟨known, by simpa using site⟩)
  obtain ⟨earlier, later, around⟩ := List.append_of_mem mine
  have whole : ((q.rebuild ps).withNote note).statements = (Tree.rebuildAll ps first ++ earlier) ++
      p.inserted :: (later ++ s.rebuild ps :: Tree.rebuildAll ps last) := by
    simp only [Tree.statements_rebuild block, split, Tree.rebuildAll_append, Tree.rebuildAll_cons,
      around, List.append_assoc, List.cons_append]
  have once := Tree.nodup_statements (applied.holds.distinct.sublist (Tree.ids_sublist left))
  have idle : Flow.walkAll name .statement (p.inserted :: later) false = Flow.idle false := by
    refine Flow.walkAll_inserted (fun d listed => ?_) false
    obtain ⟨p', -, rfl⟩ := List.mem_map.mp
      (show d ∈ Tree.insertions ps s.id from around ▸ List.mem_append_right earlier listed)
    exact ⟨p', rfl⟩
  have rest : Flow.walkAll name .statement (Tree.rebuildAll ps last) =
      Flow.walkAll name .statement last :=
    Flow.walkAll_rebuildAll fun r listed => alike r (by rw [split]; simp [listed])
  rw [Tree.statementsFrom_append whole once, ← List.cons_append, Flow.walkAll_append, idle,
    Flow.idle_andThen, Flow.walkAll, Flow.walkAll, (alike s (by rw [split]; simp)).walk, rest]

theorem inserted_mem (applied : Applied u size ps a) (inTree : q ∈ u.subterms)
    (block : q.isBlock = true) (listed : s ∈ q.statements) (known : p ∈ ps)
    (site : p.edit.site = .before s.id) :
    ∃ note, (q.rebuild ps).withNote note ∈ (u.rebuild ps).subterms ∧
      p.inserted ∈ ((q.rebuild ps).withNote note).statements := by
  have entry : s ∈ q.entries := List.mem_append_left _ listed
  obtain ⟨note, left⟩ := Tree.rebuild_mem_of_entry applied.foldsVariables inTree entry
  refine ⟨note, left, ?_⟩
  rw [Tree.statements_rebuild block, Tree.mem_rebuildAll]
  exact ⟨s, listed, .inl (List.mem_map_of_mem (List.mem_filter.mpr ⟨known, by simpa using site⟩))⟩

end Applied

end LocalScope
