import LocalScope.Proofs.Spreading
import LocalScope.Proofs.Stripping
import LocalScope.Proofs.Walking

/-! A declaration that can be taken out of a block leaves no trace in what is asked of the code
around it. So a variable is placed the same way before and after deeper blocks are stripped. -/
namespace LocalScope

namespace Tree

theorem eq_of_local {d : Tree} {v : LocalVariable} (known : d.local? = some v) :
    ∃ l l' isFinal, d = .node l (.declaration v.ty [.node l' (.binding v.name none)] isFinal) ∧
      v.variableId = l'.note.variableId :=
  Term.eq_of_local known

/-- Every declaration in a block below can be taken out. -/
def Sound (t : Tree) : Prop := ∀ b ∈ t.subterms, ∀ s ∈ Tree.statements b, Strippable s

theorem Sound.below {s t : Tree} (sound : t.Sound) (member : s ∈ t.subterms) : s.Sound :=
  fun b inside => sound b (Term.subterms_trans inside member)

theorem Sound.child {l : Label} {k : Kind Tree} {c : Tree} (sound : Sound (.node l k))
    (child : c ∈ k.children) : c.Sound :=
  sound.below (Term.child_mem_subterms child)

theorem Sound.statement {l : Label} {ss : List Tree} {s : Tree}
    (sound : Sound (.node l (.block ss))) (member : s ∈ ss) :
    s.isDeclaration = false ∧ s.local? = none ∨
      s.isDeclaration = true ∧ ∃ v, s.local? = some v := by
  rcases declared?_cases l.id s with ⟨no, none, -⟩ | ⟨yes, v, known, -⟩ | ⟨yes, none, -⟩
  · exact .inl ⟨no, none⟩
  · exact .inr ⟨yes, v, known⟩
  · have known := sound _ (Term.self_mem_subterms _) s member yes
    simp [none] at known

theorem Sound.filter {l : Label} {ss : List Tree} (sound : Sound (.node l (.block ss)))
    (p : Tree → Bool) : Sound (.node l (.block (ss.filter p))) := by
  intro b inside s member
  rcases Term.mem_subterms_node.mp inside with rfl | ⟨c, child, below⟩
  · exact sound _ (Term.self_mem_subterms _) s (List.mem_of_mem_filter member)
  · rw [Kind.children_block] at child
    have listed : c ∈ (Kind.block ss).children := by
      simpa using List.mem_of_mem_filter child
    exact sound.child listed b below s member

theorem any_strip {l : Label} {ss : List Tree} (sound : Sound (.node l (.block ss)))
    (p : Tree → Bool) (inert : ∀ d v, local? d = some v → p d = false)
    (same : ∀ s ∈ ss, p (Term.strip s) = p s) :
    (((ss.filter fun s => !s.isDeclaration).map Term.strip).any p) = ss.any p := by
  have each (s : Tree) (member : s ∈ ss) : (!s.isDeclaration && p s.strip) = p s := by
    rcases sound.statement member with ⟨no, -⟩ | ⟨yes, v, known⟩
    · simp [no, same s member]
    · simp [yes, inert s v known]
  rw [List.any_map, List.any_filter, Bool.eq_iff_iff, List.any_eq_true, List.any_eq_true]
  exact exists_congr fun s => and_congr_right fun member => by rw [← each s member]; rfl

theorem uses_local {d : Tree} {v : LocalVariable} (known : d.local? = some v) (name : String) :
    d.uses name = false := by
  obtain ⟨l, l', isFinal, rfl, -⟩ := eq_of_local known
  simp [Term.uses_node, Kind.map, Term.usesAt, Kind.children, Kind.slots, Slot.children]

theorem uses_strip {t : Tree} (sound : t.Sound) (name : String) :
    t.strip.uses name = t.uses name := by
  induction t using Term.inductChildren with
  | step l k ih =>
    have below (c : Tree) (child : c ∈ k.children) := ih c child (sound.child child)
    by_cases block : k.isBlock = true
    · cases k with
      | block ss =>
        have statements := any_strip sound (Term.uses name)
          (fun d v known => uses_local known name)
          (fun s member => below s (by simpa using member))
        rw [Term.strip_block, Term.uses_node, Term.uses_node]
        simpa [Kind.map, Term.usesAt, Term.hides, Function.comp_def] using statements
      | _ => cases block
    · rw [Term.strip_other l k (by simpa using block), Term.uses_node, Term.uses_node,
        Kind.map_map, Kind.map_congr k below]

theorem breaksOut_strip {t : Tree} (sound : t.Sound) : t.strip.breaksOut = t.breaksOut := by
  induction t using Term.inductChildren with
  | step l k ih =>
    have below (c : Tree) (child : c ∈ k.children) := ih c child (sound.child child)
    by_cases block : k.isBlock = true
    · cases k with
      | block ss =>
        have inert (d : Tree) (v : LocalVariable) (known : d.local? = some v) :
            d.breaksOut = false := by
          obtain ⟨l, l', isFinal, rfl, -⟩ := eq_of_local known
          simp [Term.breaksOut_node, Kind.map, Term.breaksAt, Kind.children, Kind.slots,
            Slot.children]
        have statements := any_strip sound Term.breaksOut inert
          (fun s member => below s (by simpa using member))
        rw [Term.strip_block, Term.breaksOut_node, Term.breaksOut_node]
        simpa [Kind.map, Term.breaksAt, Term.catchesBreaks, Kind.isLoop, Function.comp_def]
          using statements
      | _ => cases block
    · rw [Term.strip_other l k (by simpa using block), Term.breaksOut_node, Term.breaksOut_node,
        Kind.map_map, Kind.map_congr k below]

theorem walk_local {d : Tree} {v : LocalVariable} (known : d.local? = some v) (name : String)
    (p : Position) (s : Bool) : Flow.walk name p d s = Flow.idle s := by
  obtain ⟨l, l', isFinal, rfl, -⟩ := eq_of_local known
  cases p <;> simp [Flow.walk, Flow.walkAll, Flow.walkBindings, Flow.walkOption, Flow.idle_andThen]

theorem walkAll_strip {l : Label} {ss : List Tree} (sound : Sound (.node l (.block ss)))
    (name : String) (p : Position) (same : ∀ s ∈ ss, Flow.Alike name p s (Term.strip s)) :
    Flow.walkAll name p ((ss.filter fun s => !s.isDeclaration).map Term.strip) =
      Flow.walkAll name p ss := by
  have strippable : ∀ s ∈ ss, Strippable s := sound _ (Term.self_mem_subterms _)
  clear sound
  induction ss with
  | nil => rfl
  | cons s rest ih =>
    have onward := ih (fun r later => same r (by simp [later]))
      (fun r later => strippable r (by simp [later]))
    funext start
    cases declares : s.isDeclaration with
    | false =>
      simp only [List.filter_cons, declares, Bool.not_false, if_true, List.map_cons, Flow.walkAll,
        onward, (same s (by simp)).walk]
    | true =>
      obtain ⟨v, known⟩ := Option.isSome_iff_exists.mp (strippable s (by simp) declares)
      simp only [List.filter_cons, declares, Bool.not_true, Bool.false_eq_true, if_false, onward,
        Flow.walkAll, walk_local known, Flow.idle_andThen]

theorem alike_strip {t : Tree} (sound : t.Sound) (name : String) (p : Position) :
    Flow.Alike name p t t.strip := by
  induction t using Term.inductChildren generalizing p with
  | step l k ih =>
    have below (c : Tree) (child : c ∈ k.children) := ih c child (sound.child child)
    by_cases block : k.isBlock = true
    · cases k with
      | block ss =>
        have breaks := breaksOut_strip sound
        rw [Term.strip_block] at breaks ⊢
        have statements := walkAll_strip sound name p
          (fun s member => below s (by simpa using member) p)
        exact {
          walk := fun s => by cases p <;> simp only [Flow.walk, statements]
          target := rfl
          breaks := breaks
          bound := fun _ => rfl }
      | _ => cases block
    · rw [Term.strip_other l k (by simpa using block)]
      apply Flow.Alike.node
      intro part member
      have child : part.2 ∈ k.children := by
        rw [← Flow.parts_children k p]
        exact List.mem_map_of_mem member
      exact below part.2 child part.1

section shapes

variable (name : String) (t : Tree)

theorem isIdentifier_strip : t.strip.isIdentifier name = t.isIdentifier name := by
  cases t with
  | node l k =>
    rw [Term.strip_node]
    cases k <;> rfl

theorem assignment?_strip : t.strip.assignment? = t.assignment?.map Term.strip := by
  cases t with
  | node l k =>
    cases k with
    | expressionStatement expr =>
      cases expr with
      | node l' k' => cases k' <;> simp [Term.strip_node, Term.withoutDeclarations, Kind.map,
          Term.assignment?, Term.kind]
    | _ => simp [Term.strip_node, Term.withoutDeclarations, Kind.map, Term.assignment?, Term.kind]

theorem plainAssignment?_strip :
    t.strip.plainAssignment? name =
      (t.plainAssignment? name).map fun (x, e) => (Term.strip x, Term.strip e) := by
  cases t with
  | node l k =>
    rw [Term.strip_node]
    cases k with
    | assignment op left right =>
      cases op <;>
        simp only [Term.withoutDeclarations, Kind.map, Term.plainAssignment?, Term.kind,
          isIdentifier_strip, Option.map_none]
      split <;> rfl
    | _ => rfl

theorem onlyInit?_strip : t.strip.onlyInit? = t.onlyInit?.map Term.strip := by
  cases t with
  | node l k =>
    rw [Term.strip_node]
    cases k with
    | forLoop init cond update body =>
      match init with
      | [] | [_] | _ :: _ :: _ => rfl
    | _ => rfl

end shapes

theorem headerValue?_strip (name : String) (t : Tree) :
    t.strip.headerValue? name = (t.headerValue? name).map Term.strip := by
  simp only [Term.headerValue?, onlyInit?_strip, Option.bind_eq_bind, Option.bind_map]
  cases t.onlyInit? with
  | none => rfl
  | some only =>
    simp only [Option.bind_some, Function.comp_def, assignment?_strip, Option.bind_map]
    cases only.assignment? with
    | none => rfl
    | some assignment =>
      simp only [Option.bind_some, plainAssignment?_strip]
      cases assignment.plainAssignment? name <;> rfl

theorem absorbable?_strip {t : Tree} (sound : t.Sound) (name : String) :
    t.strip.absorbable? name =
      (t.absorbable? name).map fun (a, x) => (Term.strip a, Term.strip x) := by
  simp only [Term.absorbable?, assignment?_strip, Option.bind_eq_bind, Option.bind_map]
  cases found : t.assignment? with
  | none => rfl
  | some a =>
    have inside := Term.assignment?_mem_subterms found
    simp only [Option.bind_some, Function.comp_def, plainAssignment?_strip]
    cases plain : a.plainAssignment? name with
    | none => rfl
    | some pair =>
      obtain ⟨x, e⟩ := pair
      have shape := (Term.plainAssignment?_eq_some.mp plain).1
      have value : e ∈ a.children := by
        simp [Term.children, shape, Kind.children, Kind.slots, Slot.children]
      have valueSound : Sound e := (sound.below inside).below (Term.child_mem_subterms value)
      simp only [Option.map_some, Option.bind_some, uses_strip valueSound]
      split <;> rfl

theorem absorbableHeader?_strip {t : Tree} (sound : t.Sound) (name : String) :
    t.strip.absorbableHeader? name =
      (t.absorbableHeader? name).map fun (a, x) => (Term.strip a, Term.strip x) := by
  simp only [Term.absorbableHeader?, onlyInit?_strip, Option.bind_eq_bind, Option.bind_map]
  cases found : t.onlyInit? with
  | none => rfl
  | some only =>
    have inside := Term.child_mem_subterms (Term.onlyInit?_mem_children found)
    exact absorbable?_strip (sound.below inside) name

theorem holdsBlocks_strip (t : Tree) : t.strip.kind.holdsBlocks = t.kind.holdsBlocks := by
  cases t with
  | node l k =>
    rw [Term.strip_node]
    cases k <;> rfl

theorem isLoop_strip (t : Tree) : t.strip.kind.isLoop = t.kind.isLoop := by
  cases t with
  | node l k =>
    rw [Term.strip_node]
    cases k <;> rfl

theorem children_strip {t : Tree} (other : t.isBlock = false) :
    t.strip.children = t.children.map Term.strip := by
  cases t with
  | node l k =>
    rw [Term.strip_other l k other]
    exact Kind.children_map _ k

theorem leavesToBlocks_strip {t : Tree} (sound : t.Sound) (name : String) :
    t.strip.leavesToBlocks name = t.leavesToBlocks name := by
  cases block : t.isBlock with
  | true => simp [Term.leavesToBlocks, block]
  | false =>
    have inner : (t.strip.children.all fun c => c.isBlock || !c.uses name) =
        t.children.all fun c => c.isBlock || !c.uses name := by
      rw [children_strip block, List.all_map, Bool.eq_iff_iff, List.all_eq_true, List.all_eq_true]
      refine forall_congr' fun c => forall_congr' fun child => ?_
      have below : Sound c := sound.below (Term.child_mem_subterms child)
      simp [uses_strip below]
    simp [Term.leavesToBlocks, uses_strip sound, holdsBlocks_strip, inner]

theorem confines_strip {t : Tree} (sound : t.Sound) (name : String) (intoLoops : Bool) :
    t.strip.confines name intoLoops = t.confines name intoLoops := by
  have part (c : Tree) (child : c ∈ t.children) :
      (!c.strip.leavesToBlocks name) = !c.leavesToBlocks name := by
    rw [leavesToBlocks_strip (sound.below (Term.child_mem_subterms child))]
  have parts : t.strip.children.all (Term.leavesToBlocks name) =
      t.children.all (Term.leavesToBlocks name) := by
    rw [List.all_eq_not_any_not, List.all_eq_not_any_not]
    congr 1
    cases block : t.isBlock with
    | false =>
      rw [children_strip block, List.any_map, Bool.eq_iff_iff, List.any_eq_true, List.any_eq_true]
      exact exists_congr fun c => and_congr_right fun child => by rw [← part c child]; rfl
    | true =>
      cases t with
      | node l k =>
        cases k with
        | block ss =>
          rw [Term.strip_block]
          simp only [Term.children, Term.kind, Kind.children_block] at part ⊢
          apply any_strip sound _ _ part
          intro d v known
          simp [Term.leavesToBlocks, uses_local known]
        | _ => cases block
  rw [Term.confines, Term.confines, isLoop_strip, headerValue?_strip, parts]
  cases found : t.headerValue? name with
  | none => rfl
  | some value =>
    have valueSound : Sound value := sound.below (Term.headerValue?_mem_subterms found)
    simp only [Option.map_some, uses_strip valueSound]

theorem flatMap_strip {β : Type} {l : Label} {ss : List Tree}
    (sound : Sound (.node l (.block ss))) (f g : Tree → List β)
    (inert : ∀ d v, local? d = some v → g d = []) (same : ∀ s ∈ ss, f (Term.strip s) = g s) :
    ((ss.filter fun s => !s.isDeclaration).map Term.strip).flatMap f = ss.flatMap g := by
  have strippable : ∀ s ∈ ss, Strippable s := sound _ (Term.self_mem_subterms _)
  clear sound
  induction ss with
  | nil => rfl
  | cons s rest ih =>
    have onward := ih (fun r later => same r (by simp [later]))
      (fun r later => strippable r (by simp [later]))
    cases declares : s.isDeclaration with
    | false =>
      simp only [List.filter_cons, declares, Bool.not_false, if_true, List.map_cons,
        List.flatMap_cons, same s (by simp), onward]
    | true =>
      obtain ⟨v, known⟩ := Option.isSome_iff_exists.mp (strippable s (by simp) declares)
      simp only [List.filter_cons, declares, Bool.not_true, Bool.false_eq_true, if_false,
        List.flatMap_cons, inert s v known, List.nil_append, onward]

theorem receivers_strip {t : Tree} (sound : t.Sound) :
    t.strip.receivers = t.receivers.map Term.strip := by
  have part (c : Tree) :
      (if c.strip.isBlock then [c.strip]
        else if c.strip.kind.holdsBlocks then c.strip.children.filter Term.isBlock else []) =
      (if c.isBlock then [c]
        else if c.kind.holdsBlocks then c.children.filter Term.isBlock else []).map Term.strip := by
    rw [Term.isBlock_strip, holdsBlocks_strip]
    cases block : c.isBlock with
    | true => simp
    | false =>
      rw [children_strip block]
      cases c.kind.holdsBlocks <;> simp [List.filter_map, Function.comp_def]
  rw [Term.receivers, Term.receivers, List.map_flatMap]
  cases block : t.isBlock with
  | false => rw [children_strip block, List.flatMap_map]; simp only [part]
  | true =>
    cases t with
    | node l k =>
      cases k with
      | block ss =>
        rw [Term.strip_block]
        simp only [Term.children, Term.kind, Kind.children_block]
        apply flatMap_strip sound
        · intro d v known
          obtain ⟨l, l', isFinal, rfl, -⟩ := eq_of_local known
          rfl
        · exact fun s _ => part s
      | _ => cases block

theorem handsOn_strip {l : Label} {ss : List Tree} (sound : Sound (.node l (.block ss)))
    (name : String) (intoLoops : Bool) :
    handsOn name intoLoops ((ss.filter fun s => !s.isDeclaration).map Term.strip) =
      handsOn name intoLoops ss := by
  induction ss with
  | nil => rfl
  | cons s rest ih =>
    have later (r : Tree) (member : r ∈ rest) : r ∈ (Term.node l (.block (s :: rest))).subterms :=
      Term.child_mem_subterms (by simp [Term.children, Term.kind, member])
    have tail : Sound (.node l (.block rest)) := by
      intro b inside r member
      rcases Term.mem_subterms_node.mp inside with rfl | ⟨c, child, below⟩
      · exact sound _ (Term.self_mem_subterms _) r (List.mem_cons_of_mem s member)
      · rw [Kind.children_block] at child
        exact sound b (Term.subterms_trans below (later c child)) r member
    have head : Sound s :=
      sound.below (Term.child_mem_subterms (by simp [Term.children, Term.kind]))
    have walked := walkAll_strip tail name .statement
      (fun r member => alike_strip (sound.below (later r member)) name .statement)
    cases declares : s.isDeclaration with
    | false =>
      simp only [List.filter_cons, declares, Bool.not_false, if_true, List.map_cons, handsOn,
        uses_strip head, confines_strip head, walked, ih tail]
    | true =>
      rcases sound.statement (s := s) (by simp) with ⟨no, -⟩ | ⟨-, v, known⟩
      · simp [declares] at no
      · simp only [List.filter_cons, declares, Bool.not_true, Bool.false_eq_true, if_false,
          handsOn, uses_local known, Bool.not_false, Bool.true_or, Bool.true_and, ih tail]

theorem find?_strip {l : Label} {ss : List Tree} (sound : Sound (.node l (.block ss)))
    (name : String) :
    ((ss.filter fun s => !s.isDeclaration).map Term.strip).find? (Term.uses name) =
      (ss.find? (Term.uses name)).map Term.strip := by
  have below (s : Tree) (member : s ∈ ss) : Sound s :=
    sound.below (Term.child_mem_subterms (by simpa [Term.children, Term.kind] using member))
  have strippable : ∀ s ∈ ss, Strippable s := sound _ (Term.self_mem_subterms _)
  clear sound
  induction ss with
  | nil => rfl
  | cons s rest ih =>
    have onward := ih (fun r later => below r (by simp [later]))
      (fun r later => strippable r (by simp [later]))
    have same := uses_strip (below s (by simp)) name
    cases declares : s.isDeclaration with
    | false =>
      simp only [List.filter_cons, declares, Bool.not_false, if_true, List.map_cons,
        List.find?_cons, same, onward]
      cases s.uses name <;> rfl
    | true =>
      obtain ⟨v, known⟩ := Option.isSome_iff_exists.mp (strippable s (by simp) declares)
      simp only [List.filter_cons, declares, Bool.not_true, Bool.false_eq_true, if_false,
        List.find?_cons, uses_local known, onward]

end Tree

namespace LocalVariable

variable (o : Options) (v : LocalVariable)

theorem pointFold?_strip {t : Tree} (sound : t.Sound) :
    v.pointFold? o t.strip = v.pointFold? o t := by
  simp only [pointFold?, Tree.absorbable?_strip sound, Option.map_map]
  congr 2
  funext (a, x)
  simp [foldInto]

theorem headerFold?_strip {t : Tree} (sound : t.Sound) :
    v.headerFold? o t.strip = v.headerFold? o t := by
  simp only [headerFold?, Tree.absorbableHeader?_strip sound, Option.map_map]
  congr 2
  funext (a, x)
  simp [foldInto]

theorem declareAt_strip {t : Tree} (sound : t.Sound) :
    v.declareAt o t.strip = v.declareAt o t := by
  simp [declareAt, pointFold?_strip o v sound, insertBefore]

theorem moves_strip {l : Label} {ss : List Tree} (sound : Tree.Sound (.node l (.block ss))) :
    v.moves o (.node l (.block ((ss.filter fun s => !s.isDeclaration).map Term.strip))) =
      v.moves o (.node l (.block ss)) := by
  have headers := Tree.any_strip sound (fun s => (s.absorbableHeader? v.name).isSome)
    (by
      intro d w known
      obtain ⟨l, l', isFinal, rfl, -⟩ := Tree.eq_of_local known
      rfl)
    (by
      intro s member
      have below : Tree.Sound s :=
        sound.below (Term.child_mem_subterms (by simpa [Term.children, Term.kind] using member))
      simp [Tree.absorbableHeader?_strip below])
  simp only [moves, mayMove, Tree.statements, Term.kind, Kind.statements,
    Tree.handsOn_strip sound, headers]

/-- A variable goes to the same places when the code is stripped first. -/
theorem spread_strip {block : Tree} (sound : block.Sound) :
    v.spread o block.strip = v.spread o block := by
  induction block using Term.inductSmaller with
  | step block smaller =>
    cases block with
    | node l k =>
      by_cases other : k.isBlock = false
      · have nothing (k : Kind Tree) (other : k.isBlock = false) :
            v.spread o (.node l k) = [] := by
          apply spread_nil
          intro s member
          rw [Tree.statements, Term.kind] at member
          rw [Term.kind_of_statement member] at other
          cases other
        rw [Term.strip_other l k other, nothing k other, nothing _ (by simpa using other)]
      · cases k with
        | block ss =>
          have below (s : Tree) (member : s ∈ ss) : Tree.Sound s :=
            sound.below (Term.child_mem_subterms (by simpa [Term.children, Term.kind] using member))
          have handed : ((ss.filter fun s => !s.isDeclaration).map Term.strip).flatMap
              (v.spreadOver o) = ss.flatMap (v.spreadOver o) := by
            apply Tree.flatMap_strip sound
            · intro d w known
              obtain ⟨l, l', isFinal, rfl, -⟩ := Tree.eq_of_local known
              simp [spreadOver, headerFold?, Term.absorbableHeader?, Term.onlyInit?, Term.kind,
                Term.receivers, Term.children, Kind.children, Kind.slots, Slot.children,
                Term.isBlock, Kind.isBlock, Kind.holdsBlocks]
            · intro s member
              have inner : s.strip.receivers.flatMap (v.spread o) =
                  s.receivers.flatMap (v.spread o) := by
                rw [Tree.receivers_strip (below s member), List.flatMap_map]
                apply List.flatMap_congr
                intro r received
                have less : s.size < (Term.node l (.block ss)).size :=
                  Term.size_lt_of_mem_children
                    (by simpa [Term.children, Term.kind] using member)
                exact smaller r ((Term.size_receiver_lt received).trans less)
                  ((below s member).below (Term.receiver_mem_subterms received))
              rw [spreadOver, spreadOver, headerFold?_strip o v (below s member), inner]
          rw [Term.strip_block, spread_eq, spread_eq, moves_strip o v sound]
          simp only [Tree.statements, Term.kind, Kind.statements, Tree.find?_strip sound, handed]
          cases found : ss.find? (Term.uses v.name) with
          | none => rfl
          | some point =>
            have sound' := below point (List.mem_of_find?_eq_some found)
            simp only [Option.map_some, declareAt_strip o v sound']
        | _ => exact absurd rfl other

theorem spread_filter {l : Label} {ss : List Tree} (sound : Tree.Sound (.node l (.block ss))) :
    v.spread o (.node l (.block (ss.filter fun s => !s.isDeclaration))) =
      v.spread o (Term.strip (.node l (.block ss))) := by
  rw [← spread_strip o v (sound.filter _), Term.strip_block, Term.strip_block, List.filter_filter]
  simp only [Bool.and_self]

end LocalVariable

end LocalScope
