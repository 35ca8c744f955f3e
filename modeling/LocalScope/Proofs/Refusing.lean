import LocalScope.Proofs.Inertness

namespace LocalScope

namespace Tree

/-- Why the declarations of a block cannot be taken out. -/
def refusal? (b : Tree) : Option Error :=
  match declarations b.id b.statements with
  | .ok _ => none
  | .error e => some e

/-- The first refusal, parents before their children. -/
def fault? (t : Tree) : Option Error := t.subterms.findSome? refusal?

theorem refusal?_eq_some {b : Tree} {e : Error} :
    refusal? b = some e ↔ declarations b.id b.statements = .error e := by
  rw [refusal?]
  split <;> rename_i said <;> simp [said]

theorem refusal?_eq_none {b : Tree} : refusal? b = none ↔ ∀ s ∈ statements b, Strippable s := by
  constructor
  · intro accepted s listed
    by_contra unsound
    obtain ⟨e, failed⟩ := declarations_error b.id listed unsound
    rw [refusal?_eq_some.mpr failed] at accepted
    cases accepted
  · intro strippable
    obtain ⟨found, answer, -⟩ := declarations_ok b.id strippable
    rw [refusal?, answer]

theorem sound_iff {t : Tree} : t.Sound ↔ t.fault? = none := by
  simp only [Sound, fault?, List.findSome?_eq_none_iff, refusal?_eq_none]

theorem findSome?_fault? (ts : List Tree) :
    (ts.flatMap Term.subterms).findSome? refusal? = ts.findSome? fault? := by
  induction ts with
  | nil => rfl
  | cons t rest ih =>
    rw [List.flatMap_cons, List.findSome?_append, ih, List.findSome?_cons, ← fault?]
    cases fault? t <;> rfl

theorem fault?_node (l : Label) (k : Kind Tree) :
    fault? (.node l k) = (refusal? (.node l k)).or (k.children.findSome? fault?) := by
  rw [fault?, Term.subterms_node, List.findSome?_cons, findSome?_fault?]
  cases refusal? (.node l k) <;> rfl

theorem declared?_error {block : NodeId} {s : Tree} {e : Error} (failed : declared? block s = .error e) :
    ∃ fault, e = .declaration block fault := by
  rw [declared?] at failed
  split at failed
  · split at failed
    · cases failed
    · exact ⟨_, (Except.error.inj failed).symm⟩
    · exact ⟨_, (Except.error.inj failed).symm⟩
  · exact ⟨_, (Except.error.inj failed).symm⟩
  · cases failed

theorem declaration_of_error {block : NodeId} {ss : List Tree} {e : Error}
    (failed : declarations block ss = .error e) : ∃ fault, e = .declaration block fault := by
  induction ss with
  | nil => cases failed
  | cons s rest ih =>
    rw [declarations] at failed
    cases said : declared? block s with
    | error e' =>
      rw [said] at failed
      obtain rfl : e' = e := Except.error.inj failed
      exact declared?_error said
    | ok v? =>
      rw [said, Except.ok_bind] at failed
      cases v? with
      | none => exact ih failed
      | some v =>
        cases later : declarations block rest with
        | error e' =>
          simp only [later] at failed
          obtain rfl : e' = e := Except.error.inj failed
          exact ih later
        | ok found =>
          simp only [later] at failed
          cases failed

theorem declaration_of_fault {t : Tree} {e : Error} (fails : t.fault? = some e) :
    ∃ b ∈ t.subterms, ∃ fault, e = .declaration (id b) fault := by
  obtain ⟨b, member, refused⟩ := List.exists_of_findSome?_eq_some fails
  exact ⟨b, member, declaration_of_error (refusal?_eq_some.mp refused)⟩

theorem fault?_local {d : Tree} {v : LocalVariable} (known : d.local? = some v) : d.fault? = none := by
  obtain ⟨l, l', isFinal, rfl, -⟩ := eq_of_local known
  simp [fault?_node, refusal?, statements, Term.kind, Kind.statements, declarations, Kind.children,
    Kind.slots, Slot.children]

theorem fault?_children {l : Label} {k : Kind Tree} (accepted : refusal? (.node l k) = none) :
    (Term.withoutDeclarations k).children.findSome? fault? = k.children.findSome? fault? := by
  cases k with
  | block ss =>
    have strippable : ∀ s ∈ ss, Strippable s := refusal?_eq_none.mp accepted
    simp only [Term.withoutDeclarations, Kind.children_block]
    clear accepted
    induction ss with
    | nil => rfl
    | cons s rest ih =>
      have onward := ih fun r later => strippable r (List.mem_cons_of_mem s later)
      cases declares : s.isDeclaration with
      | false =>
        rw [List.filter_cons_of_pos (by simp [declares]), List.findSome?_cons, List.findSome?_cons,
          onward]
      | true =>
        obtain ⟨v, known⟩ :=
          Option.isSome_iff_exists.mp (strippable s List.mem_cons_self declares)
        rw [List.filter_cons_of_neg (by simp [declares]), onward, List.findSome?_cons,
          fault?_local known]
  | _ => rfl

end Tree

end LocalScope
