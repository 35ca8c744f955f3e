import LocalScope.Proofs.Coverage
import LocalScope.Proofs.Rewalking

namespace LocalScope

variable {ℓ ℓ' : Type}

/-- `ty name;` or `ty name = init;` -/
def Term.declaring (outer inner : ℓ) (ty : Ty) (name : String) (init : Option (Term ℓ))
    (isFinal : Bool) : Term ℓ :=
  .node outer (.declaration ty [.node inner (.binding name init)] isFinal)

mutual

/-- Code, and the same code with declarations moved. Labels do not matter. -/
inductive Moved : Term ℓ → Term ℓ' → Prop
  | block {l : ℓ} {l' : ℓ'} {ss : List (Term ℓ)} {ss' : List (Term ℓ')} (statements : MovedAll ss ss') :
      Moved (.node l (.block ss)) (.node l' (.block ss'))
  | header {l : ℓ} {l' : ℓ'} {init : Term ℓ} {init' : Term ℓ'} (cond : Option (Term ℓ × Term ℓ'))
      (update : List (Term ℓ × Term ℓ')) (body : Term ℓ × Term ℓ') (entry : Folded init init')
      (parts : ∀ part ∈ cond.toList ++ update ++ [body], Moved part.1 part.2) :
      Moved (.node l (.forLoop [init] (cond.map Prod.fst) (update.map Prod.fst) body.1))
        (.node l' (.forLoop [init'] (cond.map Prod.snd) (update.map Prod.snd) body.2))
  | other {l : ℓ} {l' : ℓ'} (k : Kind (Term ℓ × Term ℓ')) (noBlock : k.isBlock = false)
      (parts : ∀ part ∈ k.children, Moved part.1 part.2) :
      Moved (.node l (k.map Prod.fst)) (.node l' (k.map Prod.snd))

/-- The statements of a block. All declarations among them are taken out. -/
inductive MovedAll : List (Term ℓ) → List (Term ℓ') → Prop
  | nil : MovedAll [] []
  | deleted {d : Term ℓ} {ss : List (Term ℓ)} {ss' : List (Term ℓ')} (declares : d.isDeclaration = true)
      (rest : MovedAll ss ss') : MovedAll (d :: ss) ss'
  | inserted {ss : List (Term ℓ)} {ss' : List (Term ℓ')} (outer inner : ℓ') (ty : Ty) (name : String)
      (isFinal : Bool) (rest : MovedAll ss ss') :
      MovedAll ss (.declaring outer inner ty name none isFinal :: ss')
  | kept {s : Term ℓ} {s' : Term ℓ'} {ss : List (Term ℓ)} {ss' : List (Term ℓ')}
      (stays : s.isDeclaration = false) (moved : Moved s s') (rest : MovedAll ss ss') :
      MovedAll (s :: ss) (s' :: ss')
  | folded {s : Term ℓ} {s' : Term ℓ'} {ss : List (Term ℓ)} {ss' : List (Term ℓ')}
      (folded : Folded s s') (rest : MovedAll ss ss') : MovedAll (s :: ss) (s' :: ss')

/-- `name = value`, as a statement or bare, and the declaration that has taken its place. -/
inductive Folded : Term ℓ → Term ℓ' → Prop
  | bare {la lx : ℓ} {value : Term ℓ} {value' : Term ℓ'} (outer inner : ℓ') (ty : Ty) (name : String)
      (isFinal : Bool) (moved : Moved value value') :
      Folded (.node la (.assignment .plain (.node lx (.identifier name)) value))
        (.declaring outer inner ty name (some value') isFinal)
  | statement {l la lx : ℓ} {value : Term ℓ} {value' : Term ℓ'} (outer inner : ℓ') (ty : Ty)
      (name : String) (isFinal : Bool) (moved : Moved value value') :
      Folded (.node l (.expressionStatement
          (.node la (.assignment .plain (.node lx (.identifier name)) value))))
        (.declaring outer inner ty name (some value') isFinal)

end

theorem Term.onlyInit?_of_entry {t s : Term ℓ} (noBlock : t.kind.isBlock = false)
    (entry : s ∈ t.entries) : t.onlyInit? = some s := by
  rcases List.mem_append.mp entry with listed | only
  · rw [Term.kind_of_statement listed] at noBlock
    cases noBlock
  · exact Option.mem_toList.mp only

namespace Tree

theorem body_node (l : Label) (k : Kind Tree) : body (.node l k) = .node l.note (k.map body) :=
  Term.relabel_node Label.note l k

theorem isDeclaration_body (t : Tree) : t.body.isDeclaration = t.isDeclaration := by
  obtain ⟨l, k⟩ := t
  rw [body_node]
  cases k <;> rfl

end Tree

theorem Moved.withNote {t : Term ℓ} {u : Tree} (moved : Moved t u.body) (note : Annotation) :
    Moved t (u.withNote note).body := by
  obtain ⟨l, k⟩ := u
  have relabeled : (Tree.withNote note (.node l k)).body = .node note (k.map Tree.body) :=
    Tree.body_node { l with note } k
  rw [relabeled]
  rw [Tree.body_node] at moved
  generalize k.map Tree.body = contents at moved
  generalize l.note = old at moved
  cases moved with
  | block statements => exact .block statements
  | header cond update body entry parts => exact .header cond update body entry parts
  | other k noBlock parts => exact .other k noBlock parts

section layers

variable {l : Label} {f : Tree → Tree}

theorem Moved.map {k : Kind Tree} (noBlock : k.isBlock = false)
    (parts : ∀ c ∈ k.children, Moved c.body (f c).body) :
    Moved (Tree.body (.node l k)) (Tree.body (.node l (k.map f))) := by
  have pairs := @Moved.other _ _ l.note l.note (k.map fun c => (Tree.body c, (f c).body))
    (by rw [Kind.isBlock_map, noBlock]) (by
      intro pair listed
      rw [Kind.children_map] at listed
      obtain ⟨c, child, rfl⟩ := List.mem_map.mp listed
      exact parts c child)
  rw [Kind.map_map, Kind.map_map] at pairs
  rw [Tree.body_node, Tree.body_node, Kind.map_map]
  exact pairs

theorem Moved.map_header {s body : Tree} {cond : Option Tree} {update : List Tree}
    (entry : Folded s.body (f s).body)
    (parts : ∀ c ∈ cond.toList ++ update ++ [body], Moved c.body (f c).body) :
    Moved (Tree.body (.node l (.forLoop [s] cond update body)))
      (Tree.body (.node l ((Kind.forLoop [s] cond update body).map f))) := by
  let pair (c : Tree) : Body × Body := (c.body, (f c).body)
  have pairs := @Moved.header _ _ l.note l.note _ _ (cond.map pair) (update.map pair)
    (pair body) entry (by
      intro part listed
      have listed : part ∈ (cond.toList ++ update ++ [body]).map pair := by
        simpa [Option.toList_map] using listed
      obtain ⟨c, child, rfl⟩ := List.mem_map.mp listed
      exact parts c child)
  simp only [Option.map_map, List.map_map] at pairs
  rw [Tree.body_node, Tree.body_node, Kind.map_map]
  exact pairs

end layers

theorem MovedAll.insertions {ss : List (Term ℓ)} {ss' : List Body} (moved : MovedAll ss ss')
    (ps : List Patch) (x : NodeId) : MovedAll ss ((Tree.insertions ps x).map Tree.body ++ ss') := by
  rw [Tree.insertions, List.map_map]
  induction ps.filter fun p => p.edit.site = .before x with
  | nil => exact moved
  | cons p more ih => exact .inserted _ _ _ _ _ ih

theorem MovedAll.rebuildAll {ps : List Patch} {ss : List Tree}
    (each : ∀ s ∈ ss, s.isDeclaration = false →
      Moved s.body (Tree.rebuild ps (Term.strip s)).body ∨
        Folded s.body (Tree.rebuild ps (Term.strip s)).body) :
    MovedAll (ss.map Tree.body)
      ((Tree.rebuildAll ps ((ss.filter fun s => !s.isDeclaration).map Term.strip)).map Tree.body) := by
  induction ss with
  | nil => exact .nil
  | cons s ss ih =>
    have rest := ih fun r later => each r (List.mem_cons_of_mem s later)
    cases declares : s.isDeclaration with
    | true =>
      rw [List.filter_cons_of_neg (by simp [declares]), List.map_cons]
      exact .deleted (by rw [Tree.isDeclaration_body, declares]) rest
    | false =>
      rw [List.filter_cons_of_pos (by simp [declares]), List.map_cons, List.map_cons,
        Tree.rebuildAll_cons, List.map_append, List.map_cons]
      have here : MovedAll (s.body :: ss.map Tree.body)
          ((Tree.rebuild ps (Term.strip s)).body ::
            (Tree.rebuildAll ps ((ss.filter fun s => !s.isDeclaration).map Term.strip)).map
              Tree.body) := by
        rcases each s List.mem_cons_self declares with moved | folded
        · exact .kept (by rw [Tree.isDeclaration_body, declares]) moved rest
        · exact .folded folded rest
      exact here.insertions ps _

namespace Applied

variable {u : Tree} {size : Nat} {ps : List Patch} {a : Arena}

theorem folded_moved (applied : Applied u size ps a) {s : Tree} {p : Patch}
    (member : Term.strip s ∈ u.subterms) (folded : Tree.foldedBy? ps (Term.strip s) = some p)
    (value : ∀ v : Tree, v.size < s.size → Term.strip v ∈ u.subterms →
      Tree.foldedBy? ps (Term.strip v) = none → Moved v.body (Tree.rebuild ps (Term.strip v)).body) :
    Folded s.body (Tree.rebuild ps (Term.strip s)).body := by
  obtain ⟨r', stripped, folds⟩ := Option.bind_eq_some_iff.mp folded
  obtain ⟨r, found, rfl⟩ := Option.map_eq_some_iff.mp ((Tree.assignment?_strip s).symm.trans stripped)
  obtain ⟨⟨op, x, v, shape⟩, around⟩ := Term.assignment?_cases found
  have shape' : (Term.strip r).kind = .assignment op (Term.strip x) (Term.strip v) := by
    obtain ⟨l, k⟩ := r
    rw [Term.kind] at shape
    subst shape
    rw [Term.strip_other _ _ rfl]
    rfl
  obtain ⟨x', v', plain, named⟩ := applied.folded_at member stripped folds
  obtain ⟨rfl, rfl, -⟩ : op = .plain ∧ Term.strip x = x' ∧ Term.strip v = v' := by
    simpa [shape'] using plain
  rw [Tree.isIdentifier_strip] at named
  have inTree := Term.subterms_trans (Term.assignment?_mem_subterms stripped) member
  have moved := value v (Tree.size_value_lt found shape)
    (Term.subterms_trans (Tree.value_mem_subterms stripped shape') member)
    (applied.value_unfolded inTree shape')
  rw [Tree.rebuild_folded ps stripped shape' folds]
  -- The shapes are known by now: `s` is `name = v`, bare or as a statement.
  obtain ⟨lr, kr⟩ := r
  obtain ⟨lx, kx⟩ := x
  obtain rfl : kr = _ := shape
  obtain rfl : kx = _ := Term.isIdentifier_iff.mp named
  rcases around with rfl | around
  · exact .bare _ _ _ _ _ (moved.withNote _)
  · obtain ⟨ls, ks⟩ := s
    obtain rfl : ks = _ := around
    exact .statement _ _ _ _ _ (moved.withNote _)

theorem entry_of_folded_part (applied : Applied u size ps a) {n c : Tree} {p : Patch}
    (member : n ∈ u.subterms) (unfolded : Tree.foldedBy? ps n = none) (child : c ∈ n.children)
    (folded : Tree.foldedBy? ps c = some p) : c ∈ n.entries := by
  rcases applied.folded_child member child folded with entry | assigned
  · exact entry
  · rw [Tree.foldedBy?_assignment assigned, unfolded] at folded
    cases folded

def PartMoved (ps : List Patch) (c : Tree) : Prop :=
  Tree.foldedBy? ps (Term.strip c) = none ∧ Moved c.body (Tree.rebuild ps (Term.strip c)).body ∨
    (∃ p, Tree.foldedBy? ps (Term.strip c) = some p) ∧
      Folded c.body (Tree.rebuild ps (Term.strip c)).body

theorem partMoved (applied : Applied u size ps a) {n c : Tree} (child : c ∈ n.children)
    (member : Term.strip c ∈ u.subterms)
    (smaller : ∀ m : Tree, m.size < n.size → Term.strip m ∈ u.subterms →
      Tree.foldedBy? ps (Term.strip m) = none → Moved m.body (Tree.rebuild ps (Term.strip m)).body) :
    PartMoved ps c := by
  have less := Term.size_lt_of_mem_children child
  rw [PartMoved]
  cases folded : Tree.foldedBy? ps (Term.strip c) with
  | none => exact .inl ⟨rfl, smaller c less member folded⟩
  | some p =>
    exact .inr ⟨⟨p, rfl⟩, applied.folded_moved member folded fun v inner => smaller v (inner.trans less)⟩

/- Where a part of a node is folded the node is a loop and the part its only entry, so that the other
parts are not folded. -/
theorem moved_header {l : Label} {k : Kind Tree} {c : Tree} {p : Patch}
    (distinct : (Tree.ids (.node l (k.map Term.strip))).Nodup)
    (each : ∀ c ∈ k.children, PartMoved ps c)
    (only : ∀ c ∈ k.children, ∀ p, Tree.foldedBy? ps (Term.strip c) = some p →
      (Term.node l (k.map Term.strip)).onlyInit? = some (Term.strip c))
    (child : c ∈ k.children) (folded : Tree.foldedBy? ps (Term.strip c) = some p) :
    Moved (Tree.body (.node l k))
      (Tree.body (.node l (k.map fun c => Tree.rebuild ps (Term.strip c)))) := by
  obtain ⟨cond', update', body', shape⟩ := Term.onlyInit?_eq_some.mp (only c child p folded)
  cases k with
  | forLoop init cond update body =>
    simp only [Term.kind, Kind.map, Kind.forLoop.injEq, List.map_eq_singleton_iff] at shape
    obtain ⟨⟨s, rfl, same⟩, -, -, -⟩ := shape
    refine .map_header ?_ fun r other => ?_
    · rcases each s (by simp [Kind.children, Kind.slots, Slot.children]) with ⟨no, -⟩ | ⟨-, folded⟩
      · rw [same, folded] at no
        cases no
      · exact folded
    · have among : r ∈ (Kind.forLoop [s] cond update body).children := by
        simpa [Kind.children, Kind.slots, Slot.children] using .inr (by simpa using other)
      rcases each r among with ⟨-, moved⟩ | ⟨⟨q, second⟩, -⟩
      · exact moved
      · have equal : Term.strip s = Term.strip r := Option.some.inj (only r among q second)
        refine absurd equal.symm (Tree.header_part distinct ?_)
        simpa [Option.toList_map] using List.mem_map_of_mem (f := Term.strip) other
  | _ => cases shape

theorem moved (applied : Applied u size ps a) {n : Tree} (member : Term.strip n ∈ u.subterms)
    (unfolded : Tree.foldedBy? ps (Term.strip n) = none) :
    Moved n.body (Tree.rebuild ps (Term.strip n)).body := by
  induction n using Term.inductSmaller with
  | step n smaller =>
    obtain ⟨l, k⟩ := n
    have part {c : Tree} (child : c ∈ k.children)
        (stays : Term.strip c ∈ (Term.strip (.node l k)).children) : PartMoved ps c :=
      applied.partMoved (n := .node l k) child
        (Term.subterms_trans (Term.child_mem_subterms stays) member) smaller
    cases block : k.isBlock with
    | true =>
      cases k with
      | block ss =>
        rw [Term.strip_block, Tree.rebuild_block, Tree.body_node, Tree.body_node]
        refine .block (.rebuildAll fun s listed stays => ?_)
        have listed' : Term.strip s ∈ (Term.strip (.node l (.block ss))).children := by
          rw [Term.strip_block]
          simpa [Term.children, Term.kind] using ⟨s, ⟨listed, stays⟩, rfl⟩
        exact (part (by simpa using listed) listed').imp And.right And.right
      | _ => cases block
    | false =>
      have stripped := Term.strip_other l k block
      have stays (c : Tree) (child : c ∈ k.children) :
          Term.strip c ∈ (Term.strip (.node l k)).children := by
        rw [stripped]
        simpa [Term.children, Term.kind, Kind.children_map] using ⟨c, child, rfl⟩
      have each (c : Tree) (child : c ∈ k.children) : PartMoved ps c := part child (stays c child)
      have made : Tree.rebuild ps (Term.strip (.node l k)) =
          .node l (k.map fun c => Tree.rebuild ps (Term.strip c)) := by
        rw [stripped] at unfolded ⊢
        rw [Tree.rebuild_other ps l _ (by cases k <;> first | rfl | cases block) unfolded,
          Kind.map_map]
      rw [made]
      by_cases folds : ∃ c ∈ k.children, ∃ p, Tree.foldedBy? ps (Term.strip c) = some p
      · obtain ⟨c, child, p, folded⟩ := folds
        have distinct := applied.distinct.sublist (Tree.ids_sublist member)
        rw [stripped] at distinct
        refine moved_header distinct each (fun c child p folded => ?_) child folded
        have entry := applied.entry_of_folded_part member unfolded (stays c child) folded
        rw [stripped] at entry
        exact Term.onlyInit?_of_entry ((Kind.isBlock_map Term.strip k).trans block) entry
      · refine .map block fun c child => ?_
        rcases each c child with ⟨-, moved⟩ | ⟨folded, -⟩
        · exact moved
        · exact absurd ⟨c, child, folded⟩ folds

end Applied

/-- A run only moves declarations. -/
theorem Pass.moved_of_run {p : Pass} {body : Body} {root : NodeId} {before after : Arena}
    (lowered : Arena.ofBody body = (root, before)) (run : (p.run root before).2 = .ok () after) :
    ∃ out, after.body root = .ok out ∧ Moved body out := by
  obtain ⟨t, ps, stats, viewed, held, sound, placed, output⟩ := Pass.placed_of_body lowered run
  obtain ⟨size, -, applied⟩ := placed.applied
  obtain ⟨-, name, raised, -⟩ := Arena.ofBody_holds body
  have same : Arena.treeOfBody body = t := by rw [Arena.treeOfBody, lowered, viewed]
  rw [same] at name raised
  rw [lowered] at name
  have root : (Tree.rebuild ps (Term.strip t)).id = root := by
    rw [Tree.id, Tree.label_rebuild ps applied.root, Term.label_strip]
    exact name
  refine ⟨(Tree.rebuild ps (Term.strip t)).body, ?_, ?_⟩
  · rw [Arena.body, ← root, applied.holds.whole_eq]
    rfl
  · rw [← raised]
    exact applied.moved (Term.self_mem_subterms _) applied.root

theorem Pass.moved_of_run_twice :
    ∃ out, (Pass.outcome {} (Arena.ofBody .twice).1 (Arena.ofBody .twice).2).body
      (Arena.ofBody .twice).1 = .ok out ∧ Moved Body.twice out := by
  have ran : (Pass.run {} (Arena.ofBody .twice).1 (Arena.ofBody .twice).2).2 = .ok () _ :=
    Pass.run_outcome (by decide +kernel)
  exact Pass.moved_of_run Prod.mk.eta.symm ran

end LocalScope
