import LocalScope.Placement.Strip
import LocalScope.Proofs.Steps

namespace LocalScope

namespace Term

variable {ℓ : Type}

def isDeclaration (t : Term ℓ) : Bool :=
  match t.kind with
  | .declaration .. => true
  | _ => false

/-- The variable of a declaration with one binding and no initializer. -/
def local? (note : ℓ → Annotation) (s : Term ℓ) : Option LocalVariable :=
  match s.kind with
  | .declaration ty [binding] _ =>
    match binding.kind with
    | .binding name none => some ⟨ty, name, (note binding.label).variableId⟩
    | _ => none
  | _ => none

theorem eq_of_local {note : ℓ → Annotation} {d : Term ℓ} {v : LocalVariable}
    (known : d.local? note = some v) :
    ∃ l l' isFinal, d = .node l (.declaration v.ty [.node l' (.binding v.name none)] isFinal) ∧
      v.variableId = (note l').variableId := by
  cases d with
  | node l k =>
    cases k with
    | declaration ty bindings isFinal =>
      match bindings with
      | [] | _ :: _ :: _ => simp [local?, kind] at known
      | [.node l' k'] =>
        cases k' with
        | binding name init =>
          cases init with
          | none =>
            simp only [local?, kind, Option.some.injEq] at known
            exact ⟨l, l', isFinal, by rw [← known], by rw [← known]; rfl⟩
          | some value => simp [local?, kind] at known
        | _ => simp [local?, kind] at known
    | _ => simp [local?, kind] at known

def withoutDeclarations : Kind (Term ℓ) → Kind (Term ℓ)
  | .block ss => .block (ss.filter fun s => !s.isDeclaration)
  | k => k

theorem withoutDeclarations_other {k : Kind (Term ℓ)} (other : k.isBlock = false) :
    withoutDeclarations k = k := by
  cases k <;> first | rfl | cases other

/-- Code without the declarations that are statements of its blocks. -/
def strip : Term ℓ → Term ℓ := fold fun l k => node l (withoutDeclarations k)

theorem strip_node (l : ℓ) (k : Kind (Term ℓ)) :
    (node l k).strip = node l (withoutDeclarations (k.map strip)) := by
  rw [strip, fold_node]

theorem strip_other (l : ℓ) (k : Kind (Term ℓ)) (other : k.isBlock = false) :
    (node l k).strip = node l (k.map strip) := by
  rw [strip_node, withoutDeclarations_other ((Kind.isBlock_map strip k).trans other)]

@[simp] theorem label_strip (t : Term ℓ) : t.strip.label = t.label := by
  cases t with
  | node l k =>
    rw [strip_node]
    rfl

@[simp] theorem isDeclaration_strip (t : Term ℓ) : t.strip.isDeclaration = t.isDeclaration := by
  cases t with
  | node l k =>
    rw [strip_node]
    cases k <;> rfl

@[simp] theorem isBlock_strip (t : Term ℓ) : t.strip.isBlock = t.isBlock := by
  cases t with
  | node l k =>
    rw [strip_node]
    cases k <;> rfl

theorem strip_block (l : ℓ) (ss : List (Term ℓ)) :
    (node l (.block ss)).strip =
      node l (.block ((ss.filter fun s => !s.isDeclaration).map strip)) := by
  rw [strip_node]
  simp only [Kind.map, withoutDeclarations, List.filter_map]
  congr 4
  funext s
  simp

theorem strip_withoutDeclarations (l : ℓ) (k : Kind (Term ℓ)) :
    (node l k).strip = node l ((withoutDeclarations k).map strip) := by
  cases k with
  | block ss => rw [strip_block]; rfl
  | _ => rw [strip_other _ _ rfl]; rfl

end Term

def Body.local? (s : Body) : Option LocalVariable := Term.local? id s

namespace Tree

@[simp] theorem id_strip (t : Tree) : id (Term.strip t) = t.id := by
  simp [id]

theorem ids_strip (t : Tree) : (ids (Term.strip t)).Sublist t.ids := by
  induction t using Term.inductChildren with
  | step l k ih =>
    rw [Term.strip_withoutDeclarations, ids_node, ids_node, Kind.children_map, List.flatMap_map]
    apply List.Sublist.cons_cons
    have kept : (Term.withoutDeclarations k).children.Sublist k.children := by
      cases k with
      | block ss =>
        simp only [Term.withoutDeclarations, Kind.children, Kind.slots, Slot.children,
          List.flatMap_cons, List.flatMap_nil, List.append_nil]
        exact List.filter_sublist
      | _ => exact List.Sublist.refl _
    exact (List.Sublist.flatMap_right _ fun c member => ih c (kept.subset member)).trans
      (kept.flatMap ids)

def declared? (block : NodeId) (s : Tree) : Except Error (Option LocalVariable) :=
  match s.kind with
  | .declaration ty [binding] _ =>
    match binding.kind with
    | .binding name none => .ok (some ⟨ty, name, binding.label.note.variableId⟩)
    | .binding name (some _) => .error (.declaration block (.initialized name s.id))
    | _ => .error (.declaration block (.notABinding s.id (id binding)))
  | .declaration _ bindings _ =>
    .error (.declaration block (.bindingCount s.id bindings.length))
  | _ => .ok none

def declarations (block : NodeId) : List Tree → Except Error (List (Tree × LocalVariable))
  | [] => .ok []
  | s :: rest => do
    match ← declared? block s with
    | none => declarations block rest
    | some v => return (s, v) :: (← declarations block rest)

def local? (s : Tree) : Option LocalVariable := Term.local? Label.note s

/-- A statement that a block can be stripped of, or that stays. -/
def Strippable (s : Tree) : Prop := s.isDeclaration = true → s.local?.isSome = true

theorem declared?_cases (block : NodeId) (s : Tree) :
    (s.isDeclaration = false ∧ s.local? = none ∧ declared? block s = .ok none) ∨
    (s.isDeclaration = true ∧ ∃ v, s.local? = some v ∧ declared? block s = .ok (some v)) ∨
    (s.isDeclaration = true ∧ s.local? = none ∧ ∃ e, declared? block s = .error e) := by
  cases s with
  | node l k =>
    cases k with
    | declaration ty bindings isFinal =>
      match bindings with
      | [] => exact .inr (.inr ⟨rfl, rfl, _, rfl⟩)
      | _ :: _ :: _ => exact .inr (.inr ⟨rfl, rfl, _, rfl⟩)
      | [.node l' k'] =>
        cases k' with
        | binding name init =>
          cases init with
          | none => exact .inr (.inl ⟨rfl, _, rfl, rfl⟩)
          | some value => exact .inr (.inr ⟨rfl, rfl, _, rfl⟩)
        | _ => exact .inr (.inr ⟨rfl, rfl, _, rfl⟩)
    | _ => exact .inl ⟨rfl, rfl, rfl⟩

def locals (ss : List Tree) : List LocalVariable := ss.filterMap local?

theorem declarations_ok (block : NodeId) {ss : List Tree} (sound : ∀ s ∈ ss, Strippable s) :
    ∃ found, declarations block ss = .ok found ∧ found.map Prod.snd = locals ss ∧
      found.map Prod.fst = ss.filter Term.isDeclaration := by
  induction ss with
  | nil => exact ⟨[], rfl, rfl, rfl⟩
  | cons s rest ih =>
    obtain ⟨found, answer, vars, statements⟩ := ih fun r later => sound r (by simp [later])
    rcases declared?_cases block s with ⟨no, none, said⟩ | ⟨yes, v, known, said⟩ | ⟨yes, none, -⟩
    · refine ⟨found, ?_, ?_, ?_⟩
      · simp only [declarations, said, answer]
        rfl
      · simp [locals, none, vars]
      · simp [no, statements]
    · refine ⟨(s, v) :: found, ?_, ?_, ?_⟩
      · simp only [declarations, said, answer]
        rfl
      · simp [locals, known, vars]
      · simp [yes, statements]
    · have known := sound s (by simp) yes
      simp [none] at known

theorem declarations_error (block : NodeId) {ss : List Tree} {s : Tree} (member : s ∈ ss)
    (unsound : ¬ Strippable s) : ∃ e, declarations block ss = .error e := by
  induction ss with
  | nil => cases member
  | cons r rest ih =>
    rcases declared?_cases block r with ⟨no, -, said⟩ | ⟨yes, v, known, said⟩ | ⟨-, -, e, said⟩
    · rcases List.mem_cons.mp member with rfl | later
      · exact absurd (fun yes => absurd yes (by simp [no])) unsound
      · obtain ⟨e, failed⟩ := ih later
        exact ⟨e, by simp only [declarations, said, failed]; rfl⟩
    · rcases List.mem_cons.mp member with rfl | later
      · exact absurd (fun _ => by simp [known]) unsound
      · obtain ⟨e, failed⟩ := ih later
        exact ⟨e, by simp only [declarations, said, failed]; rfl⟩
    · exact ⟨e, by simp only [declarations, said]; rfl⟩

end Tree

namespace Arena

variable {a : Arena}

theorem Holds.declared?_eq {s : Tree} (held : a.Holds s) (block : NodeId) :
    a.declared? block s.id = s.declared? block := by
  cases s with
  | node l k =>
    have top := held.kind
    simp only [declared?, top, Tree.declared?, Except.ok_bind]
    cases k with
    | declaration ty bindings isFinal =>
      match bindings with
      | [] => rfl
      | b :: c :: rest => simp [Term.kind, Kind.map]
      | [b] =>
        have listed : b ∈ (Term.node l (.declaration ty [b] isFinal)).children := by
          simp [Term.children, Term.kind, Kind.children, Kind.slots, Slot.children]
        have inner : a.Holds b := held.below (Term.child_mem_subterms listed)
        simp only [Term.kind, Kind.map, List.map_cons, List.map_nil, inner.kind, inner.note,
          Except.ok_bind]
        cases b with
        | node l' k' =>
          cases k' with
          | binding name init => cases init <;> rfl
          | _ => rfl
    | _ => rfl

theorem declarations_eq (block : NodeId) (ss : List Tree) (held : ∀ s ∈ ss, a.Holds s) :
    a.declarations block (ss.map Tree.id) =
      (Tree.declarations block ss).map fun found => found.map fun (s, v) => (Tree.id s, v) := by
  induction ss with
  | nil => rfl
  | cons s rest ih =>
    have tail := ih fun r later => held r (by simp [later])
    have head := (held s (by simp)).declared?_eq block
    simp only [List.map_cons, declarations, Tree.declarations, head, tail]
    rcases Tree.declared? block s with e | _ | v
    · rfl
    · rfl
    · simp only [Except.ok_bind]
      rcases Tree.declarations block rest with e | found <;> rfl

theorem Holds.listing {l : Label} {ss : List Tree} (held : a.Holds (.node l (.block ss))) :
    (a.kind l.id >>= fun k => a.declarations l.id k.statements) =
      (Tree.declarations l.id ss).map fun found => found.map fun (s, v) => (Tree.id s, v) := by
  have top : a.kind l.id = .ok ((Kind.block ss).map Tree.id) := held.kind
  rw [top, Except.ok_bind]
  exact declarations_eq l.id ss fun s member => ((holds_block.mp held).2.2.1 s member).2

end Arena

namespace Editing

variable {a : Arena} {l : Label} {ss : List Tree}

theorem remove_run {s : Tree} (held : a.Holds (.node l (.block ss))) (member : s ∈ ss) :
    remove s.id a =
      .ok () ((a.setKind l.id (.block ((ss.map Tree.id).erase s.id))).unlink s.id) := by
  have link : a.parent? s.id = some l.id := ((Arena.holds_block.mp held).2.2.1 s member).1
  have listed : s.id ∈ ss.map Tree.id := List.mem_map_of_mem member
  rw [remove, bind_ok (parentOf_ok _ link held.kind)]
  simp only [Term.kind, Kind.map, Kind.holder?_block listed, Kind.removal_block listed,
    Option.getD_some]
  rfl

theorem remove_spec {s : Tree} (held : a.Holds (.node l (.block ss))) (member : s ∈ ss) :
    ∃ b, remove s.id a = .ok () b ∧
      b.Holds (.node l (.block (ss.filter fun r => Tree.id r != s.id))) ∧
      Arena.Confined (l.id :: ss.flatMap Tree.ids) a b ∧ b.parent? l.id = a.parent? l.id := by
  obtain ⟨shown, row, children, outside, apart⟩ := Arena.holds_block.mp held
  have inList (r : Tree) (other : r ∈ ss) : r.ids ⊆ ss.flatMap Tree.ids :=
    fun x inside => List.mem_flatMap.mpr ⟨r, other, inside⟩
  have ownId : s.id ≠ l.id := by
    intro same
    exact outside (inList s member (same ▸ Tree.id_mem_ids s))
  have kept : (ss.map Tree.id).erase s.id = (ss.filter fun r => r.id != s.id).map Tree.id := by
    have different : (ss.map Tree.id).Nodup := apart.sublist (Tree.map_id_sublist ss)
    rw [different.erase_eq_filter, List.filter_map]
    rfl
  have fewer : (ss.filter fun r => Tree.id r != s.id).Sublist ss := List.filter_sublist
  refine ⟨_, remove_run held member, Arena.holds_block.mpr ⟨shown, ?_, ?_, ?_, ?_⟩, ?_, ?_⟩
  · simp [Arena.get?_setKind, row, kept]
  · intro c left
    obtain ⟨other, differs⟩ := List.mem_filter.mp left
    have notSelf : ∀ x ∈ c.ids, s.id ≠ x := by
      rintro x inside rfl
      have same := Tree.eq_of_common apart other member inside (Tree.id_mem_ids s)
      simp [same] at differs
    refine ⟨?_, (children c other).2.frame ?_ ?_⟩
    · simp [Arena.parent?_unlink, notSelf _ (Tree.id_mem_ids c), (children c other).1]
    · intro x inside
      have notBlock : x ≠ l.id := by
        rintro rfl
        exact outside (inList c other inside)
      simp [Arena.get?_setKind, notBlock]
    · intro x inside _
      simp [Arena.parent?_unlink, notSelf x inside]
  · exact fun inside => outside ((fewer.flatMap Tree.ids).subset inside)
  · exact apart.sublist (fewer.flatMap Tree.ids)
  · refine ⟨by simp, ?_, ?_⟩
    · intro x elsewhere _
      have notBlock : x ≠ l.id := fun same => elsewhere (by simp [same])
      simp [Arena.get?_setKind, notBlock]
    · intro x elsewhere _
      have notSelf : s.id ≠ x := by
        rintro rfl
        exact elsewhere (List.mem_cons_of_mem _ (inList s member (Tree.id_mem_ids s)))
      simp [Arena.parent?_unlink, notSelf]
  · simp [Arena.parent?_unlink, ownId]

theorem remove_all (ds : List Tree) (held : a.Holds (.node l (.block ss))) (members : ds ⊆ ss)
    (once : (ds.map Tree.id).Nodup) :
    ∃ b, (ds.map Tree.id).forM remove a = .ok () b ∧
      b.Holds (.node l (.block (ss.filter fun r => !(ds.map Tree.id).contains (Tree.id r)))) ∧
      Arena.Confined (l.id :: ss.flatMap Tree.ids) a b ∧ b.parent? l.id = a.parent? l.id := by
  induction ds generalizing a ss with
  | nil =>
    refine ⟨a, rfl, ?_, .refl, rfl⟩
    simpa using held
  | cons d ds ih =>
    obtain ⟨b, first, held', confined, root⟩ := remove_spec held (members List.mem_cons_self)
    have still : ds ⊆ ss.filter fun r => Tree.id r != d.id := by
      intro r later
      refine List.mem_filter.mpr ⟨members (by simp [later]), ?_⟩
      rw [List.map_cons, List.nodup_cons] at once
      simp only [bne_iff_ne, ne_eq]
      intro same
      exact once.1 (same ▸ List.mem_map_of_mem later)
    obtain ⟨c, rest, held'', confined', root'⟩ := ih held' still (List.nodup_cons.mp once).2
    refine ⟨c, ?_, ?_, ?_, root'.trans root⟩
    · exact (bind_ok first _).trans rest
    · rw [List.filter_filter] at held''
      have same : (fun r : Tree => !((d :: ds).map Tree.id).contains r.id) =
          fun r => !(ds.map Tree.id).contains r.id && r.id != d.id := by
        funext r
        rw [Bool.eq_iff_iff]
        simp [and_comm]
      rw [same]
      exact held''
    · apply confined.trans (confined'.mono _)
      apply List.cons_subset_cons
      exact (List.filter_sublist.flatMap Tree.ids).subset

theorem forM_fst (found : List (Tree × LocalVariable)) :
    ((found.map fun (s, v) => (Tree.id s, v)).forM fun (s, _) => remove s) =
      ((found.map Prod.fst).map Tree.id).forM remove := by
  induction found with
  | nil => rfl
  | cons f rest ih => exact congrArg (fun later => remove (Tree.id f.1) >>= fun _ => later) ih

theorem strip_error {e : Error} (held : a.Holds (.node l (.block ss)))
    (failed : Tree.declarations l.id ss = .error e) : strip l.id a = .error e a := by
  have said := held.listing
  rw [failed] at said
  exact bind_error (query_error said) _

theorem strip_ok (held : a.Holds (.node l (.block ss))) (sound : ∀ s ∈ ss, Tree.Strippable s) :
    ∃ b, strip l.id a = .ok (Tree.locals ss) b ∧
      b.Holds (.node l (.block (ss.filter fun s => !s.isDeclaration))) ∧
      Arena.Confined (l.id :: ss.flatMap Tree.ids) a b ∧ b.parent? l.id = a.parent? l.id := by
  obtain ⟨found, answer, vars, statements⟩ := Tree.declarations_ok l.id sound
  have said := held.listing
  rw [answer] at said
  obtain ⟨-, -, children, -, apart⟩ := Arena.holds_block.mp held
  have chosen : (ss.filter Term.isDeclaration).Sublist ss := List.filter_sublist
  have once : ((ss.filter Term.isDeclaration).map Tree.id).Nodup :=
    apart.sublist ((Tree.map_id_sublist _).trans (chosen.flatMap Tree.ids))
  obtain ⟨b, removed, held', confined, root⟩ := remove_all _ held chosen.subset once
  refine ⟨b, ?_, ?_, confined, root⟩
  · rw [strip, bind_ok (query_ok said)]
    rw [← statements, ← forM_fst] at removed
    rw [bind_ok removed, ← vars]
    simp [pure, EStateM.pure]
  · have same : ss.filter (fun r => !((ss.filter Term.isDeclaration).map Tree.id).contains r.id) =
        ss.filter fun s => !s.isDeclaration := by
      apply List.filter_congr
      intro r member
      rw [Bool.not_inj_iff, Bool.eq_iff_iff]
      simp only [List.contains_iff_mem, List.mem_map, List.mem_filter]
      constructor
      · rintro ⟨d, ⟨listed, yes⟩, shared⟩
        have equal := Tree.eq_of_common apart listed member (Tree.id_mem_ids d)
          (shared ▸ Tree.id_mem_ids r)
        exact equal ▸ yes
      · exact fun yes => ⟨r, ⟨member, yes⟩, rfl⟩
    rw [← same]
    exact held'

end Editing

end LocalScope
