import LocalScope.Proofs.Confinement
import LocalScope.Proofs.Coverage
import LocalScope.Proofs.Handing

/-! Final declarations. The mark says that the variable is written at one place, not how often that
place is reached: in the scope of a final declaration there is at most one write, and none if it has an
initializer, but a loop in the scope may repeat the write. -/
namespace LocalScope

namespace Kind

variable {α β : Type}

/-- The parts of a loop that can run more than once. -/
def repeated : Kind α → List α
  | .whileLoop cond body => [cond, body]
  | .doWhile body cond => [body, cond]
  | .forLoop _ cond update body => cond.toList ++ update ++ [body]
  | .forEach _ _ _ body => [body]
  | _ => []

theorem repeated_map (f : α → β) (k : Kind α) : (k.map f).repeated = k.repeated.map f := by
  cases k <;> simp [repeated, map, Option.toList_map]

theorem repeated_subset {k : Kind α} {c : α} (part : c ∈ k.repeated) : c ∈ k.children := by
  cases k <;> simp_all [repeated, children, slots, Slot.children]

end Kind

namespace Term

variable {ℓ : Type} {name : String}

theorem uses_of_writes {t : Term ℓ} (writes : t.writes name = true) : t.uses name = true := by
  obtain ⟨l, k⟩ := t
  have named {l : ℓ} {k : Kind (Term ℓ)} (target : (node l k).isIdentifier name = true) :
      (node l k).uses name = true := by
    obtain rfl : k = .identifier name := isIdentifier_iff.mp target
    simp [uses_node, Kind.map, usesAt]
  cases k with
  | assignment op x v =>
    obtain ⟨lx, kx⟩ := x
    exact uses_of_child rfl (by simp [Kind.children, Kind.slots, Slot.children]) (named writes)
  | unary op x =>
    obtain ⟨lx, kx⟩ := x
    exact uses_of_child rfl (by simp [Kind.children, Kind.slots, Slot.children])
      (named (Bool.and_eq_true_iff.mp writes).2)
  | _ => cases writes

theorem writeCount_unused {t : Term ℓ} (visible : ∀ n ∈ t.subterms, hides name n.kind = false)
    (unused : t.uses name = false) : t.writeCount name = 0 := by
  rw [writeCount_eq_zero]
  intro w inside
  by_contra writes
  rw [uses_of_subterm visible inside (uses_of_writes (by simpa using writes))] at unused
  cases unused

theorem writeCount_expression {t : Term ℓ} (placed : t.wellPlaced .expression = true)
    (unused : t.uses name = false) : t.writeCount name = 0 :=
  writeCount_unused (fun _ inside => (visible_plain name placed (by simp) inside).1) unused

end Term

namespace Tree

/-- A loop below repeats a write of the variable that none of the edits turns into a declaration. -/
def Repeats (es : List Edit) (name : String) (t : Tree) : Prop :=
  ∃ loop ∈ t.subterms, ∃ part ∈ loop.kind.repeated, ∃ w ∈ part.subterms,
    w.writes name = true ∧ ∀ e ∈ es, e.site ≠ .inPlaceOf (id w)

/-- A declaration whose number is not an old one is marked final; beside its name and initializer
stands what is in its scope. -/
inductive DeclaresFinal (t : Tree) (old : List NodeId) (name : String) (init : Option Tree) :
    List Tree → Prop
  | intro {n d b : Tree} {before after bindings : List Tree} {ty : Ty} (member : n ∈ t.subterms)
      (listed : n.kind.listing = before ++ d :: after) (new : d.id ∉ old)
      (shape : d.kind = .declaration ty bindings true) (bound : b ∈ bindings)
      (binding : b.kind = .binding name init) :
      DeclaresFinal t old name init (after ++ n.kind.onward)

variable {name : String}

theorem repeats_iff {t : Tree} :
    Repeats [] name t ↔
      ∃ loop ∈ t.subterms, ∃ part ∈ loop.kind.repeated, part.writeCount name ≠ 0 := by
  simp [Repeats, Term.writeCount_eq_zero]

theorem writeCount_scope_le (name : String) {n d : Tree} {before after : List Tree}
    (listed : n.kind.listing = before ++ d :: after) :
    d.writeCount name + ((after ++ n.kind.onward).map (Term.writeCount name)).sum ≤
      n.writeCount name := by
  obtain ⟨l, k⟩ := n
  rw [Term.writeCount_node]
  cases k with
  | block ss =>
    have shape : ss = before ++ d :: after := listed
    simp [Term.kind, Kind.onward, shape]
    omega
  | forLoop init cond update body =>
    have shape : init = before ++ d :: after := listed
    simp [Term.kind, Kind.onward, shape, Kind.children, Kind.slots, Slot.children]
    omega
  | _ => cases before <;> cases listed

theorem repeated_rebuild (ps : List Patch) (n : Tree) :
    (rebuild ps n).kind.repeated = n.kind.repeated.map (rebuild ps) := by
  obtain ⟨l, k⟩ := n
  rcases rebuild_cases ps l k with ⟨ss, rfl, made⟩ | ⟨-, -, made⟩ | ⟨p, r, op, x, v, found, -, -, made⟩
  · rw [made]
    rfl
  · rw [made]
    exact Kind.repeated_map (rebuild ps) k
  · rw [made]
    cases k <;> first | rfl | cases found

theorem repeated_of_declarative {t : Tree} (declarative : t.isDeclarative = true) :
    t.kind.repeated = [] := by
  obtain ⟨l, k⟩ := t
  cases k <;> first | rfl | cases declarative

theorem folding?_early {qs rest : List Patch} {x : NodeId} (left : folding? (qs ++ rest) x = none) :
    folding? qs x = none := by
  rw [folding?, List.find?_eq_none] at left ⊢
  exact fun q among => left q (List.mem_append_left _ among)

theorem foldedBy?_early {qs rest : List Patch} {w : Tree} (left : foldedBy? (qs ++ rest) w = none) :
    foldedBy? qs w = none := by
  rw [foldedBy?] at left ⊢
  cases found : w.assignment? with
  | none => rfl
  | some r =>
    rw [found] at left
    exact folding?_early left

theorem FoldsVariables.early {qs rest : List Patch} {t : Tree} (folds : FoldsVariables (qs ++ rest) t) :
    FoldsVariables qs t := by
  intro l op x e inside folded
  apply folds l op x e inside
  cases left : folding? (qs ++ rest) l.id with
  | none =>
    rw [folding?_early left] at folded
    cases folded
  | some q => rfl

theorem not_repeats_inserted (p : Patch) : ¬ Repeats [] name p.inserted := by
  rintro ⟨loop, inside, part, again, -⟩
  rcases mem_subterms_declares inside with ⟨declarative, -⟩ | ⟨v, known, -⟩
  · rw [repeated_of_declarative declarative] at again
    cases again
  · cases known

end Tree

namespace LocalVariable

variable {o : Options} {v : LocalVariable} {b : Tree}

theorem value_unused {e : Edit} {x : NodeId} (planned : e ∈ v.spread o b)
    (site : e.site = .inPlaceOf x) :
    ∃ r ∈ b.subterms, Tree.id r = x ∧ ∃ target value, r.kind = .assignment .plain target value ∧
      value.uses e.name = false := by
  have absorbed {s r target : Tree} (absorbs : s.absorbable? v.name = some (r, target))
      (inside : s ∈ b.subterms) (same : e = v.foldInto r target) :
      ∃ r ∈ b.subterms, Tree.id r = x ∧ ∃ target value, r.kind = .assignment .plain target value ∧
        value.uses e.name = false := by
    subst same
    obtain ⟨value, found, shape, -, unused⟩ := Term.absorbable?_eq_some.mp absorbs
    exact ⟨r, Term.subterms_trans (Term.assignment?_mem_subterms found) inside,
      Site.inPlaceOf.inj site, target, value, shape, unused⟩
  rcases mem_spread.mp planned with ⟨m, point, handed, declares, same⟩ |
    ⟨m, s, handed, -, listed, folds⟩
  · have inside := Term.subterms_trans (Term.child_mem_subterms
      (Term.statement_mem_children (point_mem declares))) handed.mem_subterms
    rw [declareAt] at same
    cases folds : v.pointFold? o point with
    | none =>
      rw [folds] at same
      rw [same] at site
      cases site
    | some e' =>
      rw [folds] at same
      rw [pointFold?] at folds
      split at folds
      · obtain ⟨⟨r, target⟩, absorbs, rfl⟩ := Option.map_eq_some_iff.mp folds
        exact absorbed absorbs inside same
      · cases folds
  · have inside := Term.subterms_trans (Term.child_mem_subterms
      (Term.statement_mem_children listed)) handed.mem_subterms
    rw [headerFold?] at folds
    split at folds
    · obtain ⟨⟨r, target⟩, absorbs, same⟩ := Option.map_eq_some_iff.mp folds
      obtain ⟨init, only, absorbs⟩ := Term.absorbableHeader?_eq_some.mp absorbs
      exact absorbed absorbs (Term.subterms_trans (Term.child_mem_subterms
        (Term.onlyInit?_mem_children only)) inside) same.symm
    · cases folds

end LocalVariable

namespace Applied

variable {u : Tree} {size : Nat} {ps : List Patch} {a : Arena} {name : String}

theorem unfolded_iff (applied : Applied u size ps a) {w : Tree} (member : w ∈ u.subterms)
    (writes : w.writes name = true) :
    Tree.foldedBy? ps w = none ↔ ∀ e ∈ ps.map Patch.edit, e.site ≠ .inPlaceOf w.id := by
  have sites : Tree.folding? ps w.id = none ↔ ∀ e ∈ ps.map Patch.edit, e.site ≠ .inPlaceOf w.id := by
    simp [Tree.folding?, List.find?_eq_none]
  rw [← sites]
  obtain ⟨l, k⟩ := w
  cases k with
  | assignment op x v => rfl
  | unary op x =>
    refine ⟨fun _ => ?_, fun _ => rfl⟩
    by_contra folded
    obtain ⟨p, folded⟩ := Option.ne_none_iff_exists'.mp folded
    obtain ⟨n, inside, s, entry, r, found, same, y, v, shape, -⟩ := applied.folded_entry folded
    have inTree := Term.subterms_trans (Term.mem_subterms_of_child (Term.entry_mem_children entry)
      (Term.assignment?_mem_subterms found)) inside
    obtain rfl : r = .node l (.unary op x) :=
      List.inj_on_of_nodup_map applied.distinct inTree member same
    cases shape
  | _ => cases writes

theorem writeCount_rebuild_ne_zero (applied : Applied u size ps a) {c : Tree} (member : c ∈ u.subterms) :
    (c.rebuild ps).writeCount name ≠ 0 ↔
      ∃ w ∈ c.subterms, w.writes name = true ∧
        ∀ e ∈ ps.map Patch.edit, e.site ≠ .inPlaceOf (Tree.id w) := by
  rw [Tree.writeCount_rebuild name (applied.foldsVariables.below member), ← Nat.pos_iff_ne_zero,
    List.countP_pos_iff]
  refine exists_congr fun w => and_congr_right fun within => ?_
  rw [Bool.and_eq_true_iff, Option.isNone_iff_eq_none]
  exact and_congr_right fun writes => applied.unfolded_iff (Term.subterms_trans within member) writes

theorem repeats_rebuild (applied : Applied u size ps a) {c : Tree} (member : c ∈ u.subterms) :
    Tree.Repeats [] name (c.rebuild ps) ↔ Tree.Repeats (ps.map Patch.edit) name c := by
  have inTree {loop part : Tree} (inside : loop ∈ c.subterms) (again : part ∈ loop.kind.repeated) :
      part ∈ u.subterms :=
    Term.subterms_trans (Term.child_mem_subterms (Kind.repeated_subset again))
      (Term.subterms_trans inside member)
  rw [Tree.repeats_iff]
  constructor
  · rintro ⟨loop, inside, part, again, written⟩
    rcases Tree.mem_subterms_rebuild inside with ⟨n, within, -, note, rfl⟩ | ⟨declarative, -⟩
    · have mapped : part ∈ (Tree.rebuild ps n).kind.repeated := again
      rw [Tree.repeated_rebuild, List.mem_map] at mapped
      obtain ⟨old, listed, rfl⟩ := mapped
      exact ⟨n, within, old, listed,
        (applied.writeCount_rebuild_ne_zero (inTree within listed)).mp written⟩
    · rw [Tree.repeated_of_declarative declarative] at again
      cases again
  · rintro ⟨loop, inside, part, again, kept⟩
    have unassigned : loop.assignment? = none := by
      obtain ⟨l, k⟩ := loop
      cases k <;> first | rfl | cases again
    have whole : Tree.foldedBy? ps loop = none := by
      rw [Tree.foldedBy?, unassigned]
      rfl
    -- The targets of folded assignments are gone, so an identifier need not have an image.
    have plain (x : String) : loop.kind ≠ .identifier x := by
      intro shape
      rw [shape] at again
      cases again
    obtain ⟨note, image⟩ :=
      Tree.rebuild_mem_subterms (applied.foldsVariables.below member) inside whole plain
    have mapped : Tree.rebuild ps part ∈ (Tree.rebuild ps loop).kind.repeated := by
      rw [Tree.repeated_rebuild]
      exact List.mem_map_of_mem again
    exact ⟨_, image, Tree.rebuild ps part, mapped,
      (applied.writeCount_rebuild_ne_zero (inTree inside again)).mpr kept⟩

/-- The patch behind a final declaration, and what it says about the scope: all of it belongs to the
node that the patch is about. -/
inductive FinalBy (u : Tree) (ps : List Patch) (name : String) : Option Tree → List Tree → Prop
  | inserted {p : Patch} {n s : Tree} {before after scope : List Tree} (known : p ∈ ps)
      (named : p.edit.name = name) (final : p.isFinal = true) (member : n ∈ u.subterms)
      (listed : n.statements = before ++ s :: after) (site : p.edit.site = .before s.id)
      (within : ∀ c ∈ scope, (∃ q : Patch, c = q.inserted) ∨ ∃ r ∈ s :: after, c = r.rebuild ps)
      (count : (scope.map (Term.writeCount name)).sum ≤ (n.rebuild ps).writeCount name) :
      FinalBy u ps name none scope
  | folded {p : Patch} {n s r x v : Tree} {note : Annotation} {scope : List Tree}
      (named : p.edit.name = name) (final : p.isFinal = true) (member : n ∈ u.subterms)
      (entry : s ∈ n.entries) (found : s.assignment? = some r)
      (chosen : Tree.folding? ps (Tree.id r) = some p) (shape : r.kind = .assignment .plain x v)
      (target : x.isIdentifier p.edit.name = true)
      (count : (v.rebuild ps).writeCount name + (scope.map (Term.writeCount name)).sum ≤
        (n.rebuild ps).writeCount name) :
      FinalBy u ps name (some ((v.rebuild ps).withNote note)) scope

theorem finalBy (applied : Applied u size ps a) {old : List NodeId} (known : u.ids ⊆ old)
    {init : Option Tree} {scope : List Tree}
    (declared : (u.rebuild ps).DeclaresFinal old name init scope) : FinalBy u ps name init scope := by
  cases declared with
  | @intro m d b before after bindings ty inside listed new shape bound binding =>
  have count := Tree.writeCount_scope_le name listed
  rcases Tree.mem_subterms_rebuild inside with ⟨n, member, -, note, rfl⟩ | ⟨declarative, -⟩
  · rw [Tree.writeCount_withNote] at count
    obtain ⟨first, s, last, own, ⟨p, among, site, statements, rfl, laid⟩ | ⟨same, -⟩⟩ :=
      Tree.listing_rebuild listed
    · obtain ⟨-, rfl, final⟩ := Kind.declaration.inj shape
      rw [List.mem_singleton.mp bound] at binding
      obtain ⟨named, rfl⟩ := Kind.binding.inj binding
      refine .inserted among named final member statements site (fun c later => ?_) (by omega)
      refine (laid c later).imp_left ?_
      rintro ⟨y, new⟩
      obtain ⟨q, -, rfl⟩ := List.mem_map.mp new
      exact ⟨q, rfl⟩
    · -- What the node has listed itself has an old number, unless it is folded.
      have own : s ∈ n.kind.listing := by simp [own]
      cases folds : Tree.foldedBy? ps s with
      | none =>
        have child := Kind.mem_children_of_listing (List.mem_append_left _ own)
        have inTree := Term.subterms_trans (Term.child_mem_subterms child) member
        have label : d.id = Tree.id s := by
          rw [same]
          exact congrArg Label.id (Tree.label_rebuild ps folds)
        exact absurd (known (label ▸ Tree.ids_subset inTree (Tree.id_mem_ids s))) new
      | some p =>
        obtain ⟨r, found, folds⟩ := Option.bind_eq_some_iff.mp folds
        have entry := applied.entry_of_folded member own found folds
        have inTree := Term.subterms_trans (Term.child_mem_subterms (Term.entry_mem_children entry)) member
        obtain ⟨x, v, plain, target⟩ := applied.folded_at inTree found folds
        have made := same.trans (Tree.rebuild_folded ps found plain folds)
        rw [made, Tree.writeCount_folded] at count
        rw [made] at shape
        obtain ⟨-, rfl, final⟩ := Kind.declaration.inj shape
        rw [List.mem_singleton.mp bound] at binding
        obtain ⟨named, rfl⟩ := Kind.binding.inj binding
        exact .folded named final member entry found folds plain target count
  · rw [Tree.listing_of_declarative declarative] at listed
    cases before <;> cases listed

/- The holder of a folding is marked as the patches before it leave the code. -/
theorem mark_of_folding (applied : Applied u size ps a) {markFinal : Bool}
    (marked : Patch.AllMarked markFinal u ps) {p : Patch} {n s r x v : Tree} (member : n ∈ u.subterms)
    (entry : s ∈ n.entries) (found : s.assignment? = some r)
    (chosen : Tree.folding? ps (Tree.id r) = some p) (shape : r.kind = .assignment .plain x v) :
    ∃ before after, ps = before ++ p :: after ∧ Tree.folding? before (Tree.id r) = none ∧
      p.isFinal = (markFinal && (n.rebuild before).writeCount p.edit.name ==
        (v.rebuild before).writeCount p.edit.name + 1) := by
  obtain ⟨-, before, after, split, others⟩ := List.find?_eq_some_iff_append.mp chosen
  have unfolded : Tree.folding? before (Tree.id r) = none :=
    List.find?_eq_none.mpr fun q among => by simpa using others q among
  refine ⟨before, after, split, unfolded, ?_⟩
  have site := (Tree.folding?_mem chosen).2
  cases marked before p after split with
  | insertion member' listed site' =>
    rw [site] at site'
    cases site'
  | @folding n' s' r' x' v' member' entry' found' site' shape' mark =>
    rw [site, Site.inPlaceOf.injEq] at site'
    have child := Term.entry_mem_children entry
    have child' := Term.entry_mem_children entry'
    have inTree {n s r : Tree} (member : n ∈ u.subterms) (child : s ∈ n.children)
        (found : s.assignment? = some r) : r ∈ u.subterms :=
      Term.subterms_trans (Term.mem_subterms_of_child child (Term.assignment?_mem_subterms found)) member
    obtain rfl : r = r' := List.inj_on_of_nodup_map applied.distinct (inTree member child found)
      (inTree member' child' found') site'
    obtain rfl : s = s' := Tree.eq_of_assignment? applied.distinct member member' child
      (Term.assignment?_of_entry entry) child' (Term.assignment?_of_entry entry') found found'
    obtain rfl := Tree.parent_unique applied.distinct member member' child child'
    rw [shape, Kind.assignment.injEq] at shape'
    obtain ⟨-, rfl, rfl⟩ := shape'
    exact mark

theorem writeCount_of_folding (applied : Applied u size ps a) {markFinal : Bool}
    (marked : Patch.AllMarked markFinal u ps) {p : Patch} {n s r x v : Tree} (member : n ∈ u.subterms)
    (entry : s ∈ n.entries) (found : s.assignment? = some r)
    (chosen : Tree.folding? ps (Tree.id r) = some p) (shape : r.kind = .assignment .plain x v)
    (target : x.isIdentifier p.edit.name = true) (final : p.isFinal = true)
    (unwritten : v.writeCount p.edit.name = 0) : (n.rebuild ps).writeCount p.edit.name = 0 := by
  obtain ⟨qs, rest, rfl, unfolded, mark⟩ :=
    applied.mark_of_folding marked member entry found chosen shape
  have inHolder := Term.mem_subterms_of_child (Term.entry_mem_children entry)
    (Term.assignment?_mem_subterms found)
  have folds := applied.foldsVariables.early
  have value : (v.rebuild qs).writeCount p.edit.name = 0 := by
    have below : v ∈ u.subterms := Term.subterms_trans (Tree.value_mem_subterms found shape)
      (Term.subterms_trans (Term.child_mem_subterms (Term.entry_mem_children entry)) member)
    rw [Tree.writeCount_rebuild _ (folds.below below), List.countP_eq_zero]
    intro w inside
    simp [(Term.writeCount_eq_zero _).mp unwritten w inside]
  rw [final, value, Nat.zero_add, eq_comm, Bool.and_eq_true, beq_iff_eq,
    Tree.writeCount_rebuild _ (folds.below member), List.countP_eq_length_filter,
    List.length_eq_one_iff] at mark
  obtain ⟨-, only, single⟩ := mark
  have counted {w : Tree} (inside : w ∈ n.subterms) (writes : w.writes p.edit.name = true)
      (left : Tree.foldedBy? qs w = none) : w = only := by
    have among : w ∈ n.subterms.filter fun w =>
        w.writes p.edit.name && (Tree.foldedBy? qs w).isNone :=
      List.mem_filter.mpr ⟨inside, by simp [writes, left]⟩
    rw [single] at among
    exact List.mem_singleton.mp among
  have self : r.assignment? = some r := by simp only [Term.assignment?, shape]
  have whole (rs : List Patch) : Tree.foldedBy? rs r = Tree.folding? rs (Tree.id r) := by
    rw [Tree.foldedBy?, self]
    rfl
  have first : r = only := by
    refine counted inHolder ?_ ((whole qs).trans unfolded)
    simp only [Term.writes, shape, target]
  -- The one write that was left is the one that has been folded.
  rw [Tree.writeCount_rebuild _ (applied.foldsVariables.below member), List.countP_eq_zero]
  intro w inside both
  obtain ⟨writes, left⟩ := Bool.and_eq_true_iff.mp both
  rw [Option.isNone_iff_eq_none] at left
  obtain rfl : w = r := (counted inside writes (Tree.foldedBy?_early left)).trans first.symm
  rw [whole, chosen] at left
  cases left

theorem mark_of_insertion (applied : Applied u size ps a) {markFinal : Bool}
    (marked : Patch.AllMarked markFinal u ps) {p : Patch} {n s : Tree} (among : p ∈ ps)
    (member : n ∈ u.subterms) (listed : s ∈ n.statements) (site : p.edit.site = .before s.id) :
    p.isFinal = (markFinal && n.writeCount p.edit.name == 1) := by
  obtain ⟨before, after, split⟩ := List.append_of_mem among
  cases marked before p after split with
  | @insertion n' s' member' listed' site' mark =>
    rw [site, Site.before.injEq] at site'
    have child := Term.statement_mem_children listed
    have child' := Term.statement_mem_children listed'
    have inTree {n s : Tree} (member : n ∈ u.subterms) (child : s ∈ n.children) : s ∈ u.subterms :=
      Term.subterms_trans (Term.child_mem_subterms child) member
    obtain rfl : s = s' := List.inj_on_of_nodup_map applied.distinct (inTree member child)
      (inTree member' child') site'
    obtain rfl := Tree.parent_unique applied.distinct member member' child child'
    exact mark
  | folding member' entry found site' =>
    rw [site] at site'
    cases site'

end Applied

namespace Editing.Placed

variable {o : Options} {t : Tree} {a b : Arena} {ps : List Patch} {stats : Stats} {name : String}

theorem repeats_iff (placed : Placed o t a ps stats b) {c : Tree} :
    Tree.Repeats (ps.map Patch.edit) name c ↔ Tree.Repeats (t.plan o) name c := by
  have sites (x : NodeId) : (∀ e ∈ ps.map Patch.edit, e.site ≠ .inPlaceOf x) ↔
      ∀ e ∈ t.plan o, e.site ≠ .inPlaceOf x := by
    constructor
    · intro none e planned same
      obtain ⟨p, made, site, -⟩ := placed.made planned
      exact none p.edit (List.mem_map_of_mem made.mem) (site.trans same)
    · intro none e listed
      obtain ⟨p, known, rfl⟩ := List.mem_map.mp listed
      exact none p.edit (placed.edit_mem_plan known)
  simp only [Tree.Repeats, sites]

theorem value_unused (placed : Placed o t a ps stats b) (sound : t.Sound) {p : Patch} {r x v : Tree}
    (member : r ∈ (Term.strip t).subterms) (chosen : Tree.folding? ps (Tree.id r) = some p)
    (shape : r.kind = .assignment .plain x v) : v.uses p.edit.name = false := by
  obtain ⟨size, -, applied⟩ := placed.applied
  obtain ⟨known, site⟩ := Tree.folding?_mem chosen
  obtain ⟨n, inside, w, mine, planned⟩ := Tree.mem_plan.mp (placed.edit_mem_plan known)
  obtain ⟨d, listed, -⟩ := List.mem_filterMap.mp mine
  have block : n.kind = .block (Tree.statements n) := Term.kind_of_statement listed
  have left := Tree.strip_mem_subterms sound inside (by rw [Tree.isDeclarative, block])
  obtain ⟨r', below, same, y, v', shape', unused⟩ := LocalVariable.value_unused planned site
  obtain rfl : r' = r :=
    List.inj_on_of_nodup_map applied.distinct (Term.subterms_trans below left) member same
  rw [shape, Kind.assignment.injEq] at shape'
  rw [shape'.2.2]
  exact unused

theorem written_once (placed : Placed o t a ps stats b) (sound : t.Sound) {place : Place}
    (ordered : t.wellPlaced place = true) {init : Option Tree} {scope : List Tree}
    (declared : (Tree.rebuild ps (Term.strip t)).DeclaresFinal t.ids name init scope) :
    (scope.map (Term.writeCount name)).sum ≤ 1 ∧
      ∀ value ∈ init, ∀ c ∈ value :: scope, c.writeCount name = 0 := by
  obtain ⟨size, -, applied⟩ := placed.applied
  cases applied.finalBy (Tree.ids_strip t).subset declared with
  | @inserted p n s before after scope known named final member listed site within count =>
    have mark := applied.mark_of_insertion placed.marked known member (by simp [listed]) site
    rw [final, named, eq_comm, Bool.and_eq_true, beq_iff_eq] at mark
    have fewer : (Tree.rebuild ps n).writeCount name ≤ n.writeCount name := by
      rw [Tree.writeCount_rebuild name (applied.foldsVariables.below member)]
      exact List.countP_mono_left fun w _ both => (Bool.and_eq_true_iff.mp both).1
    exact ⟨by omega, fun value known => by cases known⟩
  | @folded p n s r x v note scope named final member entry found chosen shape target count =>
    have inTree := Term.subterms_trans (Term.child_mem_subterms (Term.entry_mem_children entry)) member
    have unused : v.uses p.edit.name = false :=
      placed.value_unused sound (Term.subterms_trans (Term.assignment?_mem_subterms found) inTree) chosen
        shape
    have unwritten : v.writeCount p.edit.name = 0 := by
      obtain ⟨inner, orderedEntry⟩ := Term.wellPlaced_below (Term.wellPlaced_strip ordered) inTree
      exact Term.writeCount_expression (Tree.wellPlaced_value orderedEntry found shape) unused
    have none := applied.writeCount_of_folding placed.marked member entry found chosen shape target final
      unwritten
    rw [named] at none
    have value : (Tree.rebuild ps v).writeCount name = 0 := by omega
    have rest : (scope.map (Term.writeCount name)).sum = 0 := by omega
    refine ⟨by omega, ?_⟩
    rintro _ ⟨⟩ c listed
    rcases List.mem_cons.mp listed with rfl | later
    · rw [Tree.writeCount_withNote, value]
    · exact List.sum_eq_zero_iff.mp rest _ (List.mem_map_of_mem later)

theorem declaresFinal (placed : Placed o t a ps stats b) (held : a.Holds t) (marks : o.markFinal = true)
    {e : Edit} {n s : Tree} {before after : List Tree} (planned : e ∈ t.plan o)
    (member : n ∈ (Term.strip t).subterms) (listed : n.statements = before ++ s :: after)
    (site : e.site = .before s.id) (once : n.writeCount e.name = 1) :
    ∃ scope, (Tree.rebuild ps (Term.strip t)).DeclaresFinal t.ids e.name none scope ∧
      ∀ c ∈ s :: after, Tree.rebuild ps c ∈ scope := by
  obtain ⟨size, grown, applied⟩ := placed.applied
  obtain ⟨p, made, -, same⟩ := placed.made planned
  obtain rfl : p.edit = e := same (by rw [Edit.isInsertion, site])
  have inBlock : s ∈ n.statements := by simp [listed]
  have final : p.isFinal = true := by
    rw [applied.mark_of_insertion placed.marked made.mem member inBlock site, marks, once]
    rfl
  obtain ⟨l, k⟩ := n
  have shape : k = (Socket.block before after).fill s := by
    rw [Socket.fill, ← listed]
    exact Term.kind_of_statement inBlock
  subst shape
  obtain ⟨note, holder⟩ := applied.holder member (List.mem_append_left _ inBlock)
  have among : p.inserted ∈ Tree.insertions ps s.id :=
    List.mem_map_of_mem (List.mem_filter.mpr ⟨made.mem, by simpa using site⟩)
  obtain ⟨first, last, own⟩ := List.append_of_mem among
  have new : p.inserted.id ∉ t.ids := by
    intro old
    have fresh := applied.fresh _ (Tree.added_of_mem made.mem).1
    have bound : p.declaration.index < a.size := held.index_lt old
    omega
  have now : (Term.node { l with note } (Socket.fill (Tree.rebuild ps s)
      ((Socket.block before after).rebuild ps s.id))).kind.listing =
      (Tree.rebuildAll ps before ++ first) ++
        p.inserted :: (last ++ Tree.rebuild ps s :: Tree.rebuildAll ps after) := by
    simp [Term.kind, Socket.rebuild, Socket.fill, Kind.listing, own]
  refine ⟨_, .intro holder now new (by rw [Patch.inserted, Patch.declares, Term.kind, final])
    List.mem_cons_self rfl, fun c later => ?_⟩
  rcases List.mem_cons.mp later with rfl | later
  · simp
  · have image : Tree.rebuild ps c ∈ Tree.rebuildAll ps after :=
      Tree.mem_rebuildAll.mpr ⟨c, later, .inr rfl⟩
    simp [image]

theorem repeated_iff (placed : Placed o t a ps stats b) (held : a.Holds t) (marks : o.markFinal = true) :
    (∀ name scope, (Tree.rebuild ps (Term.strip t)).DeclaresFinal t.ids name none scope →
        ∀ c ∈ scope, ¬ Tree.Repeats [] name c) ↔
      ∀ e ∈ t.plan o, ∀ n ∈ (Term.strip t).subterms, ∀ first s last,
        Tree.statements n = first ++ s :: last → e.site = .before s.id → n.writeCount e.name = 1 →
          ∀ c ∈ s :: last, ¬ Tree.Repeats (t.plan o) e.name c := by
  obtain ⟨size, -, applied⟩ := placed.applied
  have inTree {n s c : Tree} {first last : List Tree} (member : n ∈ (Term.strip t).subterms)
      (listed : n.statements = first ++ s :: last) (later : c ∈ s :: last) :
      c ∈ (Term.strip t).subterms := by
    have inBlock : c ∈ n.statements := by
      rw [listed]
      exact List.mem_append_right _ later
    exact Term.subterms_trans (Term.child_mem_subterms (Term.statement_mem_children inBlock)) member
  constructor
  · intro steady e planned n member first s last listed site once c later again
    obtain ⟨scope, declared, image⟩ := placed.declaresFinal held marks planned member listed site once
    apply steady e.name scope declared _ (image c later)
    rw [applied.repeats_rebuild (inTree member listed later), placed.repeats_iff]
    exact again
  · intro steady name scope declared c inScope again
    cases applied.finalBy (Tree.ids_strip t).subset declared with
    | @inserted p n s first last scope known named final member listed site within count =>
      have mark := applied.mark_of_insertion placed.marked known member (by simp [listed]) site
      rw [final, eq_comm, Bool.and_eq_true, beq_iff_eq] at mark
      subst named
      rcases within c inScope with ⟨q, rfl⟩ | ⟨r, later, rfl⟩
      · exact Tree.not_repeats_inserted q again
      · rw [applied.repeats_rebuild (inTree member listed later), placed.repeats_iff] at again
        exact steady p.edit (placed.edit_mem_plan known) n member first s last listed site mark.2 r later
          again

end Editing.Placed

/-- A final variable has at most one write in the scope of its declaration, and none if it was given an
initializer. No loop in the scope repeats that write exactly if no declaration is put before statements
with such a loop in a block with just that write. -/
theorem Pass.final_repeated_iff {p : Pass} {body : Body} {root : NodeId} {before after : Arena}
    (lowered : Arena.ofBody body = (root, before)) (run : (p.run root before).2 = .ok () after)
    {place : Place} (ordered : (before.view root).wellPlaced place = true)
    (marks : p.options.markFinal = true) :
    (∀ name init scope, (after.view root).DeclaresFinal (before.view root).ids name init scope →
      (scope.map (Term.writeCount name)).sum ≤ 1 ∧
        ∀ value ∈ init, ∀ c ∈ value :: scope, c.writeCount name = 0) ∧
    ((∀ name scope, (after.view root).DeclaresFinal (before.view root).ids name none scope →
        ∀ c ∈ scope, ¬ Tree.Repeats [] name c) ↔
      ∀ e ∈ (before.view root).plan p.options, ∀ n ∈ (Term.strip (before.view root)).subterms,
        ∀ first s last, Tree.statements n = first ++ s :: last → e.site = .before s.id →
          n.writeCount e.name = 1 →
            ∀ c ∈ s :: last, ¬ Tree.Repeats ((before.view root).plan p.options) e.name c) := by
  obtain ⟨t, ps, stats, rfl, held, sound, placed, output⟩ := Pass.placed_of_body lowered run
  rw [output]
  exact ⟨fun name init scope declared => placed.written_once sound ordered declared,
    placed.repeated_iff held marks⟩

/-- `int v; while ((v = read()) > 0) { use(v); }` -/
def Body.reread : Body :=
  .braces [.declareInt "v",
    .plain (.whileLoop
      (.plain (.binary (.comparison .gt)
        (.plain (.assignment .plain (.read "v") (.plain (.invocation none "read" []))))
        (.plain (.literal (.int 0)))))
      (.braces [.use "v"]))]

def Tree.writeOfReread : Tree :=
  shown 4 (.assignment .plain (shown 2 (.identifier "v")) (shown 3 (.invocation none "read" [])))

def Tree.conditionOfReread : Tree :=
  shown 6 (.binary (.comparison .gt) writeOfReread (shown 5 (.literal (.int 0))))

def Tree.loopOfReread : Tree :=
  shown 11 (.whileLoop conditionOfReread (shown 10 (.block [shown 9 (.expressionStatement (shown 8
    (.invocation none "use" [shown 7 (.identifier "v")])))])))

def Tree.ofReread : Tree :=
  shown 12 (.block [shown 1 (.declaration (.primitive .int) [shown 0 (.binding "v" none)] false),
    loopOfReread])

theorem Arena.view_reread :
    (Arena.ofBody .reread).2.view (Arena.ofBody .reread).1 = Tree.ofReread := by cbv

theorem Tree.plan_reread :
    Tree.plan {} ofReread = [⟨.primitive .int, "v", none, .before ⟨11⟩⟩] := by
  have node : plan {} ofReread =
      (locals ofReread.statements).flatMap (fun v => v.spread {} (Term.strip ofReread)) ++
        ofReread.children.flatMap (plan {}) := plan_node {} _ _
  have own : locals ofReread.statements = [⟨.primitive .int, "v", none⟩] := by rfl
  have below : ofReread.children.flatMap (plan {}) = [] := by rfl
  have left : Term.strip ofReread = shown 12 (.block [loopOfReread]) := by rfl
  have declares : LocalVariable.declaresAt? {} ⟨.primitive .int, "v", none⟩
      (shown 12 (.block [loopOfReread])) = some loopOfReread := by rfl
  rw [node, own, below, left, List.flatMap_singleton, List.append_nil,
    LocalVariable.spread_declared declares]
  rfl

/- The variable is declared final before the loop that writes it in each round. -/
theorem Pass.final_repeated_reread :
    ∃ name scope, ((Pass.outcome {} (Arena.ofBody .reread).1 (Arena.ofBody .reread).2).view
        (Arena.ofBody .reread).1).DeclaresFinal
          ((Arena.ofBody .reread).2.view (Arena.ofBody .reread).1).ids name none scope ∧
      ∃ c ∈ scope, Tree.Repeats [] name c := by
  have ran : (Pass.run {} (Arena.ofBody .reread).1 (Arena.ofBody .reread).2).2 = .ok () _ :=
    Pass.run_outcome (by decide +kernel)
  have view := Arena.view_reread
  have ordered : ((Arena.ofBody .reread).2.view (Arena.ofBody .reread).1).wellPlaced .statement = true := by
    decide +kernel
  by_contra steady
  push Not at steady
  have steadily := (Pass.final_repeated_iff Prod.mk.eta.symm ran ordered rfl).2.mp
    fun name scope declared c => steady name scope declared c
  have plan : Tree.plan (Pass.options {}) Tree.ofReread = _ := Tree.plan_reread
  rw [view, plan] at steadily
  have again : Tree.Repeats [⟨.primitive .int, "v", none, .before ⟨11⟩⟩] "v" Tree.loopOfReread := by
    refine ⟨_, Term.self_mem_subterms _, Tree.conditionOfReread, List.mem_cons_self, Tree.writeOfReread, ?_,
      rfl, by simp⟩
    exact Term.child_mem_subterms List.mem_cons_self
  exact steadily _ List.mem_cons_self _ (Term.self_mem_subterms _) [] Tree.loopOfReread [] rfl rfl
    (by decide +kernel) _ List.mem_cons_self again

end LocalScope
