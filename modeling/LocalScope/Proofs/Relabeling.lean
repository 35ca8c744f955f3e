import LocalScope.Proofs.Handing
import LocalScope.Proofs.Moving

/-! Labels do not matter: whatever is asked about code on the way to a placement is answered from its
shape. Trees with the same body get the same answers. -/
namespace LocalScope

namespace Term

variable {ℓ ℓ' : Type} (f : ℓ → ℓ') (name : String) (t : Term ℓ)

theorem kind_relabel : (t.relabel f).kind = t.kind.map (relabel f) := by
  cases t with
  | node l k => rw [relabel_node]; rfl

theorem children_relabel : (t.relabel f).children = t.children.map (relabel f) := by
  rw [children, kind_relabel, Kind.children_map]
  rfl

theorem subterms_relabel : (t.relabel f).subterms = t.subterms.map (relabel f) := by
  induction t using Term.inductChildren with
  | step l k ih =>
    rw [relabel_node, subterms_node, subterms_node, List.map_cons, relabel_node, Kind.children_map,
      List.flatMap_map, List.map_flatMap, List.flatMap_congr ih]

theorem isBlock_relabel : (t.relabel f).isBlock = t.isBlock := by
  rw [isBlock, kind_relabel, Kind.isBlock_map]
  rfl

theorem isDeclaration_relabel : (t.relabel f).isDeclaration = t.isDeclaration := by
  obtain ⟨l, k⟩ := t
  rw [relabel_node]
  cases k <;> rfl

theorem local?_relabel (note : ℓ' → Annotation) :
    (t.relabel f).local? note = t.local? (note ∘ f) := by
  obtain ⟨l, k⟩ := t
  rw [relabel_node]
  cases k with
  | declaration ty bindings isFinal =>
    match bindings with
    | [] | _ :: _ :: _ => rfl
    | [.node l' k'] =>
      simp only [local?, kind, Kind.map, List.map_cons, List.map_nil, relabel_node]
      cases k' with
      | binding name init => cases init <;> rfl
      | _ => rfl
  | _ => rfl

theorem isIdentifier_relabel : (t.relabel f).isIdentifier name = t.isIdentifier name := by
  obtain ⟨l, k⟩ := t
  rw [relabel_node]
  cases k <;> rfl

theorem uses_relabel : (t.relabel f).uses name = t.uses name := by
  induction t using Term.inductChildren with
  | step l k ih => rw [relabel_node, uses_node, uses_node, Kind.map_map, Kind.map_congr k ih]

theorem alike_relabel (p : Position) : Flow.Alike name p t (t.relabel f) := by
  induction t using Term.inductChildren generalizing p with
  | step l k ih =>
    rw [relabel_node]
    refine Flow.Alike.node l (f l) k fun part listed => ih part.2 ?_ part.1
    rw [← Flow.parts_children k p]
    exact List.mem_map_of_mem listed

theorem walkAll_relabel (p : Position) (ts : List (Term ℓ)) :
    Flow.walkAll name p (ts.map (relabel f)) = Flow.walkAll name p ts :=
  Flow.walkAll_map fun t _ => alike_relabel f name t p

theorem writes_relabel : (t.relabel f).writes name = t.writes name := by
  obtain ⟨l, k⟩ := t
  rw [relabel_node]
  cases k with
  | assignment op x v => exact isIdentifier_relabel f name x
  | unary op x => exact congrArg (op.isIncrement && ·) (isIdentifier_relabel f name x)
  | _ => rfl

theorem writeCount_relabel : (t.relabel f).writeCount name = t.writeCount name := by
  rw [writeCount, subterms_relabel, List.countP_map]
  exact List.countP_congr fun w _ => by rw [Function.comp_apply, writes_relabel]

theorem strip_relabel : (t.relabel f).strip = t.strip.relabel f := by
  induction t using Term.inductChildren with
  | step l k ih =>
    cases block : k.isBlock with
    | false =>
      rw [relabel_node, strip_other _ _ (by rw [Kind.isBlock_map, block]), strip_other l k block,
        relabel_node, Kind.map_map, Kind.map_map, Kind.map_congr k ih]
    | true =>
      cases k with
      | block ss =>
        have each (s : Term ℓ) (listed : s ∈ ss.filter fun s => !s.isDeclaration) :
            (strip ∘ relabel f) s = (relabel f ∘ strip) s :=
          ih s (by simpa using List.mem_of_mem_filter listed)
        rw [relabel_node, Kind.map, strip_block, strip_block, relabel_node, Kind.map, List.map_map,
          ← List.map_congr_left each, List.filter_map, List.map_map]
        simp only [Function.comp_def, isDeclaration_relabel]
      | _ => cases block

theorem assignment?_relabel : (t.relabel f).assignment? = t.assignment?.map (relabel f) := by
  obtain ⟨l, k⟩ := t
  rw [relabel_node]
  cases k with
  | expressionStatement e =>
    obtain ⟨l', k'⟩ := e
    cases k' <;> simp [assignment?, kind, Kind.map, relabel_node]
  | assignment op x v => simp [assignment?, kind, Kind.map, relabel_node]
  | _ => rfl

theorem plainAssignment?_relabel :
    (t.relabel f).plainAssignment? name =
      (t.plainAssignment? name).map fun (x, e) => (x.relabel f, e.relabel f) := by
  obtain ⟨l, k⟩ := t
  rw [relabel_node]
  cases k with
  | assignment op x v =>
    cases op with
    | plain =>
      simp only [plainAssignment?, kind, Kind.map, isIdentifier_relabel]
      split <;> rfl
    | _ => rfl
  | _ => rfl

theorem onlyInit?_relabel : (t.relabel f).onlyInit? = t.onlyInit?.map (relabel f) := by
  obtain ⟨l, k⟩ := t
  rw [relabel_node]
  cases k with
  | forLoop init cond update body =>
    match init with
    | [] | [_] | _ :: _ :: _ => rfl
  | _ => rfl

theorem headerValue?_relabel :
    (t.relabel f).headerValue? name = (t.headerValue? name).map (relabel f) := by
  rw [headerValue?, headerValue?, onlyInit?_relabel]
  cases t.onlyInit? with
  | none => rfl
  | some only =>
    simp only [Option.map_some, Option.bind_eq_bind, Option.bind_some, assignment?_relabel]
    cases only.assignment? with
    | none => rfl
    | some a =>
      simp only [Option.map_some, Option.bind_some, plainAssignment?_relabel]
      cases a.plainAssignment? name <;> rfl

theorem absorbable?_relabel :
    (t.relabel f).absorbable? name =
      (t.absorbable? name).map fun pair => (pair.1.relabel f, pair.2.relabel f) := by
  rw [absorbable?, absorbable?, assignment?_relabel]
  cases t.assignment? with
  | none => rfl
  | some a =>
    simp only [Option.map_some, Option.bind_eq_bind, Option.bind_some, plainAssignment?_relabel]
    cases a.plainAssignment? name with
    | none => rfl
    | some pair =>
      simp only [Option.map_some, Option.bind_some, uses_relabel]
      split <;> rfl

theorem absorbableHeader?_relabel :
    (t.relabel f).absorbableHeader? name =
      (t.absorbableHeader? name).map fun pair => (pair.1.relabel f, pair.2.relabel f) := by
  rw [absorbableHeader?, absorbableHeader?, onlyInit?_relabel]
  cases t.onlyInit? with
  | none => rfl
  | some only => exact absorbable?_relabel f name only

theorem isSome_absorbable?_relabel :
    ((t.relabel f).absorbable? name).isSome = (t.absorbable? name).isSome := by
  rw [absorbable?_relabel, Option.isSome_map]

theorem isSome_absorbableHeader?_relabel :
    ((t.relabel f).absorbableHeader? name).isSome = (t.absorbableHeader? name).isSome := by
  rw [absorbableHeader?_relabel, Option.isSome_map]

theorem leavesToBlocks_relabel : (t.relabel f).leavesToBlocks name = t.leavesToBlocks name := by
  have holds : (t.relabel f).kind.holdsBlocks = t.kind.holdsBlocks := by
    rw [kind_relabel]
    cases t.kind <;> rfl
  simp only [leavesToBlocks, isBlock_relabel, uses_relabel, holds, children_relabel, List.all_map,
    Function.comp_def]

theorem confines_relabel (intoLoops : Bool) :
    (t.relabel f).confines name intoLoops = t.confines name intoLoops := by
  have loop : (t.relabel f).kind.isLoop = t.kind.isLoop := by
    rw [kind_relabel]
    cases t.kind <;> rfl
  rw [confines, confines, loop, headerValue?_relabel, children_relabel, List.all_map]
  simp only [Function.comp_def, leavesToBlocks_relabel]
  split
  · rfl
  · cases t.headerValue? name with
    | none => rfl
    | some value => simp only [Option.map_some, uses_relabel]

end Term

namespace Tree

variable {t t' : Tree} {ss ss' : List Tree}

theorem uses_of_body (same : t.body = t'.body) (name : String) : t.uses name = t'.uses name := by
  rw [← Term.uses_relabel Label.note, ← Term.uses_relabel Label.note name t']
  exact congrArg (Term.uses name) same

theorem writeCount_of_body (same : t.body = t'.body) (name : String) :
    t.writeCount name = t'.writeCount name := by
  rw [← Term.writeCount_relabel Label.note, ← Term.writeCount_relabel Label.note name t']
  exact congrArg (Term.writeCount name) same

theorem isDeclaration_of_body (same : t.body = t'.body) : t.isDeclaration = t'.isDeclaration := by
  rw [← Term.isDeclaration_relabel Label.note, ← Term.isDeclaration_relabel Label.note t']
  exact congrArg Term.isDeclaration same

theorem strip_body (t : Tree) : body (Term.strip t) = t.body.strip :=
  (Term.strip_relabel Label.note t).symm

theorem statements_body (t : Tree) : t.body.kind.statements = t.statements.map body := by
  rw [body, Term.kind_relabel, Kind.statements_map]
  rfl

theorem subterms_body (t : Tree) : t.body.subterms = t.subterms.map body :=
  Term.subterms_relabel Label.note t

theorem statements_of_body (same : t.body = t'.body) :
    t.statements.map body = t'.statements.map body := by
  rw [← statements_body, ← statements_body, same]

theorem local?_body (s : Tree) : Body.local? s.body = s.local? := Term.local?_relabel Label.note s _

theorem local?_of_body (same : t.body = t'.body) : t.local? = t'.local? := by
  rw [← local?_body, ← local?_body, same]

theorem handsOn_of_bodies (name : String) (intoLoops : Bool) (same : ss.map body = ss'.map body) :
    handsOn name intoLoops ss = handsOn name intoLoops ss' := by
  induction ss generalizing ss' with
  | nil =>
    obtain rfl := List.map_eq_nil_iff.mp same.symm
    rfl
  | cons s rest ih =>
    obtain ⟨s', rest', rfl, first, later⟩ := List.map_eq_cons_iff.mp same.symm
    have confined : s.confines name intoLoops = s'.confines name intoLoops := by
      rw [← Term.confines_relabel Label.note, ← Term.confines_relabel Label.note name s']
      exact congrArg (fun c => Term.confines name intoLoops c) first.symm
    have walked : Flow.walkAll name .statement rest = Flow.walkAll name .statement rest' := by
      rw [← Term.walkAll_relabel Label.note, ← Term.walkAll_relabel Label.note name .statement rest']
      exact congrArg (Flow.walkAll name .statement) later.symm
    rw [handsOn, handsOn, ih later.symm, uses_of_body first.symm, confined, walked]

end Tree

namespace LocalVariable

variable (o : Options) (v : LocalVariable) {b b' : Tree}

theorem moves_of_body (same : b.body = b'.body) : v.moves o b = v.moves o b' := by
  have statements := Tree.statements_of_body same
  have headers (b : Tree) : (b.statements.any fun s => (s.absorbableHeader? v.name).isSome) =
      (b.statements.map Tree.body).any fun s => (s.absorbableHeader? v.name).isSome := by
    rw [List.any_map]
    congr 1
    funext s
    exact (Term.isSome_absorbableHeader?_relabel Label.note v.name s).symm
  rw [moves, moves, mayMove, mayMove, headers, headers, statements,
    Tree.handsOn_of_bodies v.name o.intoLoops statements]

theorem pointFold?_of_body (same : b.body = b'.body) :
    (v.pointFold? o b).isSome = (v.pointFold? o b').isSome := by
  have absorbs : (b.absorbable? v.name).isSome = (b'.absorbable? v.name).isSome := by
    rw [← Term.isSome_absorbable?_relabel Label.note,
      ← Term.isSome_absorbable?_relabel Label.note v.name b']
    exact congrArg (fun c => (Term.absorbable? v.name c).isSome) same
  rw [pointFold?, pointFold?]
  split
  · rw [Option.isSome_map, Option.isSome_map, absorbs]
  · rfl

end LocalVariable

end LocalScope
