import LocalScope.Proofs.Grafting
import LocalScope.Proofs.Running

namespace LocalScope

theorem Term.assignment?_of_declaration {ℓ : Type} {t : Term ℓ} (declares : t.isDeclaration = true) :
    t.assignment? = none := by
  rw [isDeclaration] at declares
  split at declares
  · rename_i shape
    rw [assignment?, shape]
  · cases declares

namespace Tree

def blockStatements (t : Tree) : List Tree := t.subterms.flatMap statements

/-- The declarations of a tree that are not in another one. -/
def gone (t u : Tree) : List Tree := t.subterms.filter fun d => d.isDeclaration && !u.ids.contains (id d)

theorem mem_blockStatements {t s : Tree} :
    s ∈ t.blockStatements ↔ ∃ b ∈ t.subterms, s ∈ statements b := List.mem_flatMap

theorem mem_gone {t u d : Tree} :
    d ∈ gone t u ↔ d ∈ t.subterms ∧ d.isDeclaration = true ∧ d.id ∉ u.ids := by
  simp [gone, List.mem_filter]

theorem blockStatements_nodup {t : Tree} (distinct : t.ids.Nodup) : t.blockStatements.Nodup := by
  refine List.nodup_flatMap.mpr ⟨fun b inside => ?_, ?_⟩
  · exact (nodup_statements (distinct.sublist (ids_sublist inside))).of_map
  · refine distinct.of_map.pairwise_of_forall_ne fun b first b' second different => ?_
    intro s listed listed'
    exact different (parent_unique distinct first second (Term.statement_mem_children listed)
      (Term.statement_mem_children listed'))

theorem id_not_mem_strip {t b d : Tree} (distinct : t.ids.Nodup) (member : b ∈ t.subterms)
    (listed : d ∈ statements b) (declares : d.isDeclaration = true) : d.id ∉ ids (Term.strip t) := by
  induction t using Term.inductChildren with
  | step l k ih =>
    have under := Term.mem_subterms_of_child (Term.statement_mem_children listed)
      (Term.self_mem_subterms d)
    have deep : d ∈ (Term.node l k).subterms := Term.subterms_trans under member
    rw [Term.strip_withoutDeclarations, ids_node, Kind.children_map, List.flatMap_map]
    intro inside
    rcases List.mem_cons.mp inside with same | inside
    · obtain rfl : d = .node l k :=
        List.inj_on_of_nodup_map distinct deep (Term.self_mem_subterms _) same
      have first := Term.size_lt_of_mem_children (Term.statement_mem_children listed)
      have second := Term.size_le_of_mem_subterms member
      omega
    · obtain ⟨c, left, stripped⟩ := List.mem_flatMap.mp inside
      have child := (withoutDeclarations_sublist k).subset left
      have within := (ids_strip c).subset stripped
      rw [ids_node, List.nodup_cons] at distinct
      rcases Term.mem_subterms_node.mp member with rfl | ⟨c', child', below⟩
      · cases k with
        | block ss =>
          rw [Kind.children_block] at child distinct
          obtain rfl := eq_of_common distinct.2 listed child (id_mem_ids d) within
          simp [Term.withoutDeclarations, declares] at left
        | _ => cases listed
      · have common := ids_subset (Term.subterms_trans under below) (id_mem_ids d)
        obtain rfl := eq_of_common distinct.2 child' child common within
        have own := distinct.2.sublist (List.sublist_flatten_of_mem (List.mem_map_of_mem child))
        exact ih c' child own below stripped

end Tree

namespace Arena

variable {a : Arena}

theorem Holds.tally_step {b : Tree} (held : a.Holds b) (count : Nat) :
    (do
        let found ← a.declarations b.id (← a.kind b.id).statements
        return count + found.length : Except Error Nat) =
      match b.refusal? with
      | some e => .error e
      | none => .ok (count + (b.statements.filter Term.isDeclaration).length) := by
  have listed := declarations_eq b.id b.statements fun s listed =>
    held.below (Term.child_mem_subterms (Term.statement_mem_children listed))
  have statements : (b.kind.map Tree.id).statements = b.statements.map Tree.id :=
    Kind.statements_map Tree.id b.kind
  rw [held.kind, Except.ok_bind, statements, listed]
  cases refused : b.refusal? with
  | some e =>
    rw [Tree.refusal?_eq_some.mp refused]
    rfl
  | none =>
    obtain ⟨found, answer, -, chosen⟩ :=
      Tree.declarations_ok b.id (Tree.refusal?_eq_none.mp refused)
    rw [answer, ← chosen, List.length_map, ← List.length_map fun found => (Tree.id found.1, found.2)]
    rfl

theorem tally (bs : List Tree) (held : ∀ b ∈ bs, a.Holds b) (count : Nat) :
    (bs.map Tree.id).foldlM (fun count id => do
        let found ← a.declarations id (← a.kind id).statements
        return count + found.length) count =
      match bs.findSome? Tree.refusal? with
      | some e => (.error e : Except Error Nat)
      | none => .ok (count + ((bs.flatMap Tree.statements).filter Term.isDeclaration).length) := by
  induction bs generalizing count with
  | nil => rfl
  | cons b rest ih =>
    have onward := ih fun r later => held r (List.mem_cons_of_mem b later)
    rw [List.map_cons, List.foldlM_cons, (held b List.mem_cons_self).tally_step, List.findSome?_cons]
    cases b.refusal? with
    | some e => rfl
    | none =>
      rw [Except.ok_bind, onward, List.flatMap_cons, List.filter_append, List.length_append,
        Nat.add_assoc]

theorem Holds.countDeclarations_eq {t : Tree} (held : a.Holds t) :
    a.countDeclarations t.id =
      match t.fault? with
      | some e => .error e
      | none => .ok (t.blockStatements.filter Term.isDeclaration).length := by
  rw [countDeclarations, held.whole_eq, Except.ok_bind, Tree.ids,
    tally _ (fun b inside => held.below inside), Nat.zero_add]
  rfl

theorem Holds.sound_of_count {t : Tree} {count : Nat} (held : a.Holds t)
    (accepted : a.countDeclarations t.id = .ok count) : t.Sound := by
  rw [held.countDeclarations_eq] at accepted
  cases fault : t.fault? with
  | none => exact Tree.sound_iff.mpr fault
  | some e =>
    rw [fault] at accepted
    cases accepted

end Arena

theorem Pass.placed_of_count (p : Pass) {body : Body} {root : NodeId} {before : Arena} {count : Nat}
    (lowered : Arena.ofBody body = (root, before))
    (accepted : before.countDeclarations root = .ok count) :
    before.Holds (before.view root) ∧ (before.view root).Sound ∧
    ∃ ps stats after, p.run root before = ({ p with lastStats := stats }, .ok () after) ∧
      Editing.Placed p.options (before.view root) before ps stats after ∧
      after.view root = Tree.rebuild ps (Term.strip (before.view root)) := by
  obtain ⟨held, name, -, -⟩ := Arena.ofBody_holds body
  have viewed : before.view root = Arena.treeOfBody body := by rw [Arena.treeOfBody, lowered]
  have cases := p.run_cases body
  rw [lowered] at held name cases
  rw [← viewed] at held name cases
  have number : (before.view root).id = root := name
  have sound : (before.view root).Sound := by
    rw [← number] at accepted
    exact held.sound_of_count accepted
  refine ⟨held, sound, ?_⟩
  rcases cases with ⟨e, after, fault, -⟩ | ⟨ps, stats, after, -, done⟩
  · rw [Tree.sound_iff.mp sound] at fault
    cases fault
  · exact ⟨ps, stats, after, done⟩

theorem Editing.Placed.gone_perm {o : Options} {t : Tree} {a b : Arena} {ps : List Patch} {stats : Stats}
    (placed : Placed o t a ps stats b) (held : a.Holds t) (sound : t.Sound) :
    (Tree.gone t (Tree.rebuild ps (Term.strip t))).Perm
      (t.blockStatements.filter Term.isDeclaration) := by
  obtain ⟨size, grown, applied⟩ := placed.applied
  have single : (Tree.gone t (Tree.rebuild ps (Term.strip t))).Nodup := held.distinct.of_map.filter _
  have single' := (Tree.blockStatements_nodup held.distinct).filter Term.isDeclaration
  refine (List.perm_ext_iff_of_nodup single single').mpr fun d => ?_
  rw [Tree.mem_gone, List.mem_filter, Tree.mem_blockStatements]
  constructor
  · rintro ⟨member, declares, absent⟩
    rcases Tree.strip_mem_or member with left | ⟨n, inside, d', listed, declares', below⟩
    · -- It would still be there.
      have unfolded : Tree.foldedBy? ps (Term.strip d) = none := by
        rw [Tree.foldedBy?, Term.assignment?_of_declaration (by rw [Term.isDeclaration_strip, declares])]
        rfl
      have inner (name : String) : (Term.strip d).kind ≠ .identifier name := by
        intro shape
        rw [← Term.isDeclaration_strip, Term.isDeclaration, shape] at declares
        cases declares
      obtain ⟨note, inside⟩ := Tree.rebuild_mem_subterms applied.foldsVariables left unfolded inner
      have present := Tree.ids_subset inside (Tree.id_mem_ids _)
      rw [Tree.id_withNote, Tree.id, Tree.label_rebuild ps unfolded, Term.label_strip] at present
      exact absurd present absent
    · obtain ⟨v, known⟩ := Option.isSome_iff_exists.mp (sound n inside d' listed declares')
      rcases Tree.mem_subterms_local known below with rfl | shape
      · exact ⟨⟨n, inside, listed⟩, declares⟩
      · rw [Term.isDeclaration, shape] at declares
        cases declares
  · rintro ⟨⟨n, inside, listed⟩, declares⟩
    have deep := Term.subterms_trans (Term.child_mem_subterms (Term.statement_mem_children listed)) inside
    refine ⟨deep, declares, fun present => ?_⟩
    rcases Tree.mem_ids_rebuild present with old | new
    · exact Tree.id_not_mem_strip held.distinct inside listed declares old
    · have known := held.index_lt (Tree.ids_subset deep (Tree.id_mem_ids d))
      have fresh := applied.fresh _ new
      omega

/-- The check and the run refuse the same bodies, for the same declaration; where neither refuses, the
check tells how many declarations of the body the run leaves out. -/
theorem Pass.check_agrees (p : Pass) (body : Body) :
    let root := (Arena.ofBody body).1
    let before := (Arena.ofBody body).2
    (∀ e, before.countDeclarations root = .error e ↔ ∃ after, (p.run root before).2 = .error e after) ∧
    (∀ e, before.countDeclarations root = .error e → ∃ block fault, e = .declaration block fault) ∧
    ∀ count, before.countDeclarations root = .ok count →
      ∃ after, (p.run root before).2 = .ok () after ∧
        count = (Tree.gone (before.view root) (after.view root)).length := by
  intro root before
  obtain ⟨held, name, -, -⟩ := Arena.ofBody_holds body
  have counted : before.countDeclarations root = _ := name ▸ held.countDeclarations_eq
  rcases p.run_cases body with
    ⟨e, after, fault, ran⟩ | ⟨ps, stats, after, fault, ran, placed, output⟩
  · rw [fault] at counted
    obtain ⟨b, -, reason, said⟩ := Tree.declaration_of_fault fault
    refine ⟨fun e' => ?_, fun e' same => ?_, fun count same => ?_⟩
    · rw [counted, ran]
      simp
    · rw [counted, Except.error.injEq] at same
      exact ⟨Tree.id b, reason, same ▸ said⟩
    · rw [counted] at same
      cases same
  · rw [fault] at counted
    refine ⟨fun e' => ?_, fun e' same => ?_, fun count same => ⟨after, by rw [ran], ?_⟩⟩
    · rw [counted, ran]
      simp
    · rw [counted] at same
      cases same
    · rw [counted, Except.ok.injEq] at same
      rw [output, ← same]
      exact (placed.gone_perm held (Tree.sound_iff.mpr fault)).length_eq.symm

end LocalScope
