import LocalScope.Placement.Pass
import LocalScope.Proofs.Linking
import LocalScope.Proofs.Snippets

namespace LocalScope

open Relation

namespace Arena

variable {a b : Arena} {x y : NodeId}

theorem leadsTo_setNote {note : Annotation} :
    (a.setNote x note).LeadsTo = a.LeadsTo := by
  ext y z
  simp only [LeadsTo, get?_setNote]
  split
  · cases a.nodes.get? y <;> simp
  · rfl

theorem Linked.setNote (linked : a.Linked) (x : NodeId) (note : Annotation) :
    (a.setNote x note).Linked where
  inRange := by
    rw [leadsTo_setNote, size_setNote]
    exact linked.inRange
  acyclic := by
    rw [leadsTo_setNote]
    exact linked.acyclic
  once y n found := by
    rw [get?_setNote] at found
    split at found
    · obtain ⟨m, row, rfl⟩ := Option.map_eq_some_iff.mp found
      exact linked.once y m row
    · exact linked.once y n found
  parents y z := by
    rw [leadsTo_setNote, parent?_setNote]
    exact linked.parents y z

theorem Linked.not_below {p : NodeId} (linked : a.Linked) (outer : a.parent? y = some p)
    (top : a.parent? p = none) (apart : x ≠ p) : ¬ TransGen a.LeadsTo x y := by
  intro path
  obtain ⟨z, above, link⟩ := TransGen.tail'_iff.mp path
  rw [← linked.parents, outer, Option.some.injEq] at link
  subst link
  rcases above.cases_tail with same | ⟨z, -, link⟩
  · exact apart same.symm
  · exact linked.unlisted top z link

theorem Trimmed.setNote {child : NodeId} (trimmed : a.Trimmed b child) (x : NodeId)
    (note : Annotation) : a.Trimmed (b.setNote x note) child where
  linked := trimmed.linked.setNote x note
  freed := by rw [parent?_setNote, trimmed.freed]
  grows := by rw [size_setNote]; exact trimmed.grows
  paths := by
    rw [leadsTo_setNote]
    exact trimmed.paths

theorem row_of_kind {kind : Kind NodeId} (answer : a.kind x = .ok kind) :
    ∃ n, a.nodes.get? x = some n ∧ n.kind = kind := by
  cases row : a.nodes.get? x with
  | none => simp [Arena.kind, node, row, bind, Except.bind] at answer
  | some n =>
    rw [kind_of_row row, Except.ok.injEq] at answer
    exact ⟨n, rfl, answer⟩

theorem Linked.declare (linked : a.Linked) (init : Option NodeId) {anchor : NodeId}
    (inside : ∀ v ∈ init, v.index < a.size) (detached : ∀ v ∈ init, a.parent? v = none)
    (old : anchor.index < a.size) (apart : ∀ v ∈ init, ¬ ReflTransGen a.LeadsTo v anchor)
    (name : String) (ty : Ty) (isFinal : Bool) (note note' : Annotation) :
    let bound := (a.push (.binding name init) note).2
    (bound.push (.declaration ty [⟨a.size⟩] isFinal) note').2.Linked ∧
      (bound.push (.declaration ty [⟨a.size⟩] isFinal) note').2.Spare ⟨bound.size⟩ anchor := by
  intro bound
  have value : (Kind.binding name init).children = init.toList := by
    simp [Kind.children, Kind.slots, Slot.children]
  have binding : (Kind.declaration ty [NodeId.mk a.size] isFinal).children = [⟨a.size⟩] := by
    simp [Kind.children, Kind.slots, Slot.children]
  have linked' : bound.Linked := by
    apply linked.push
    · simpa [value] using inside
    · rw [value]
      cases init <;> simp
    · simpa [value] using detached
  have spare : bound.Spare ⟨a.size⟩ anchor := by
    apply spare_push linked
    · simpa [value] using inside
    · simpa [value] using apart
  have one : ∀ c ∈ (Kind.declaration ty [NodeId.mk a.size] isFinal).children,
      c.index < bound.size := by
    simpa [binding] using spare.inside
  constructor
  · apply linked'.push one
    · simp [binding]
    · simpa [binding] using spare.detached
  · apply spare_push linked' one
    intro c only path
    rw [binding, List.mem_singleton] at only
    subst only
    rcases reflTransGen_iff_eq_or_transGen.mp path with rfl | path
    · exact Nat.lt_irrefl _ old
    · exact spare.notAbove path

end Arena

namespace Body

open Traversal

theorem addAll_linked (bs : List Body)
    (each : ∀ b ∈ bs, ∀ a : Arena, a.Linked → (b.addTo.run a).2.Linked) {a : Arena}
    (linked : a.Linked) : (after addTo a bs).Linked ∧
      ∀ turn ∈ turns addTo a bs, (after addTo a bs).parent? (outcome addTo turn) = none := by
  induction bs generalizing a with
  | nil => exact ⟨linked, by simp [turns]⟩
  | cons b bs ih =>
    have first := each b (by simp) a linked
    obtain ⟨last, free⟩ := ih (fun c later => each c (by simp [later])) first
    refine ⟨last, List.forall_mem_cons.mpr ⟨?_, free⟩⟩
    obtain ⟨t, added⟩ := addTo_spec b a
    have root : outcome addTo (b, a) = t.id := added.root
    have inside := added.held.index_lt (Tree.id_mem_ids t)
    have older := (addAll_spec bs (fun c _ => addTo_spec c) (b.addTo.run a).2).older
    rw [root, after, older.parents t.id inside]
    exact added.free linked.clean

theorem addTo_linked (b : Body) : ∀ a : Arena, a.Linked → (b.addTo.run a).2.Linked := by
  induction b using Term.inductChildren with
  | step note k ih =>
    intro a linked
    obtain ⟨below, free⟩ := addAll_linked k.children ih linked
    have added := addAll_spec k.children (fun c _ => addTo_spec c) a
    have children : ((turnKind addTo a k).map (outcome addTo)).children =
        ((turns addTo a k.children).map treeOf).map Tree.id := by
      rw [Kind.children_map, (turnKind_spec addTo a k).1, List.map_map]
      exact List.map_congr_left fun turn member => (added.each turn member).1
    have listed : ∀ c ∈ ((turnKind addTo a k).map (outcome addTo)).children,
        ∃ turn ∈ turns addTo a k.children, c = (treeOf turn).id := by
      intro c member
      rw [children, List.map_map] at member
      obtain ⟨turn, inside, rfl⟩ := List.mem_map.mp member
      exact ⟨turn, inside, rfl⟩
    rw [addTo_run]
    apply below.push
    · intro c member
      obtain ⟨turn, inside, rfl⟩ := listed c member
      exact (added.each turn inside).2.2.1.index_lt (Tree.id_mem_ids _)
    · rw [children]
      apply (Tree.map_id_sublist _).nodup
      rw [List.flatMap_map]
      exact added.apart
    · intro c member
      obtain ⟨turn, inside, rfl⟩ := listed c member
      rw [← (added.each turn inside).1]
      exact free turn inside

end Body

namespace Editing

variable {α : Type} {a : Arena} {post : α → Arena → Prop}

theorem remove_upholds (child : NodeId) : (remove child).Upholds :=
  fun _ linked => (remove_ensures linked child).mono fun _ _ trimmed => trimmed.linked

theorem strip_upholds (block : NodeId) : (strip block).Upholds := by
  intro a linked
  unfold strip
  refine ensures_query linked fun found _ => ?_
  refine Ensures.bind (upholds_forM (fun entry _ => ?_) a linked) fun _ b after => ?_
  · exact remove_upholds entry.1
  · exact ensures_pure after

theorem replan_upholds (o : Options) (block : NodeId) : (replan o block).Upholds := by
  intro a linked
  unfold replan
  refine (strip_upholds block a linked).bind fun stripped b after => ?_
  split
  · exact ensures_pure after
  · refine ensures_get (ensures_query after fun tree _ => ?_)
    exact ensures_pure after

theorem planWithin_upholds (o : Options) (levels : Nat) (id : NodeId) :
    (planWithin o levels id).Upholds := by
  induction levels generalizing id with
  | zero => exact fun a linked => linked
  | succ levels ih =>
    intro a linked
    have below (b : Arena) (linked : b.Linked) (here : List Edit) :
        (query (·.kind id) >>= fun kind => kind.children.mapM (planWithin o levels) >>= fun below =>
          pure (here ++ below.flatten)).Ensures b fun _ c => c.Linked := by
      refine ensures_query linked fun kind _ => ?_
      refine (upholds_mapM (fun c _ => ih c) b linked).bind fun edits c after => ?_
      exact ensures_pure after
    unfold planWithin
    refine ensures_query linked fun kind _ => ?_
    split
    · exact (replan_upholds o id a linked).bind fun here b after => below b after here
    · exact below a linked []

theorem ensures_finality (linked : a.Linked) {markFinal : Bool} {scope : NodeId} {name : String}
    {f : Bool → Editing α} (next : ∀ isFinal, (f isFinal).Ensures a post) :
    (Edit.finality markFinal scope name >>= f).Ensures a post := by
  unfold Edit.finality
  split
  · rw [bind_assoc]
    refine ensures_query linked fun tree _ => ?_
    rw [pure_bind]
    exact next _
  · rw [pure_bind]
    exact next false

theorem insert_upholds (markFinal : Bool) (e : Edit) (anchor : NodeId) :
    (e.insert markFinal anchor).Upholds := by
  intro a linked
  unfold Edit.insert
  refine ensures_get ?_
  split
  · exact ensures_pure linked
  · rename_i block recorded
    have old := linked.inRange block anchor ((linked.parents block anchor).mp recorded)
    refine ensures_finality linked fun isFinal => ensures_add (ensures_add ?_)
    obtain ⟨after, spare⟩ := linked.declare none (by simp) (by simp) old (by simp) e.name
      e.ty isFinal { variableId := e.variableId } {}
    exact (insertBefore_ensures after spare).bind fun _ b last => ensures_pure last

theorem takeValue_ensures (linked : a.Linked) (e : Edit) (assignment value : NodeId) :
    (e.takeValue assignment value).Ensures a fun v b => v = value ∧ a.Trimmed b value := by
  unfold Edit.takeValue
  refine ensures_query linked fun note _ => ?_
  refine (remove_ensures linked value).bind fun _ b trimmed => ?_
  refine ensures_query trimmed.linked fun _ _ => ?_
  exact ⟨rfl, trimmed.setNote value _⟩

/- The value was below the node that is replaced, so it is not above it. -/
theorem declare_ensures {b : Arena} {value replaced : NodeId} (linked : a.Linked)
    (trimmed : a.Trimmed b value) (below : TransGen a.LeadsTo replaced value) (markFinal : Bool)
    (e : Edit) (scope : NodeId) (note : Annotation) :
    (Edit.fold.declare markFinal e value replaced scope note).Ensures b fun _ c => c.Linked := by
  have inside : value.index < a.size := by
    obtain ⟨z, -, link⟩ := TransGen.tail'_iff.mp below
    exact linked.inRange z value link
  have old : replaced.index < a.size := by
    obtain ⟨z, link, -⟩ := TransGen.head'_iff.mp below
    exact link.index_lt
  have apart : ¬ ReflTransGen b.LeadsTo value replaced := by
    intro path
    rcases reflTransGen_iff_eq_or_transGen.mp path with rfl | path
    · exact linked.acyclic _ below
    · exact linked.acyclic _ (below.trans (trimmed.paths value replaced old path))
  unfold Edit.fold.declare
  refine ensures_finality trimmed.linked fun isFinal => ensures_add (ensures_add ?_)
  obtain ⟨after, spare⟩ := trimmed.linked.declare (some value)
    (by simpa using Nat.lt_of_lt_of_le inside trimmed.grows) (by simpa using trimmed.freed)
    (Nat.lt_of_lt_of_le old trimmed.grows) (by simpa using apart) e.name e.ty isFinal {} note
  exact (replace_ensures after spare).bind fun _ c last => ensures_pure last

theorem fold_upholds (markFinal : Bool) (e : Edit) (assignment : NodeId) :
    (e.fold markFinal assignment).Upholds := by
  intro a linked
  unfold Edit.fold
  refine ensures_query linked fun kind found => ?_
  split
  · rename_i op left value
    obtain ⟨n, row, shape⟩ := Arena.row_of_kind found
    have inner : a.LeadsTo assignment value :=
      ⟨n, row, by simp [shape, Kind.children, Kind.slots, Slot.children]⟩
    refine ensures_get ?_
    split
    · exact ensures_pure linked
    · rename_i parent recorded
      have outer := (linked.parents parent assignment).mp recorded
      refine ensures_query linked fun around _ => ?_
      split
      · refine ensures_get ?_
        split
        · exact ensures_pure linked
        · rename_i scope _
          refine (takeValue_ensures linked e assignment value).bind ?_
          rintro _ b ⟨rfl, trimmed⟩
          refine ensures_query trimmed.linked fun note _ => ?_
          exact declare_ensures linked trimmed (.tail (.single outer) inner) markFinal e scope note
      · refine (takeValue_ensures linked e assignment value).bind ?_
        rintro _ b ⟨rfl, trimmed⟩
        exact declare_ensures linked trimmed (.single inner) markFinal e parent {}
  · exact ensures_complain linked _

theorem applyInsertion_upholds (markFinal : Bool) (stats : Stats) (e : Edit) :
    (Edit.applyInsertion markFinal stats e).Upholds := by
  intro a linked
  unfold Edit.applyInsertion
  split
  · rename_i anchor _
    refine (insert_upholds markFinal e anchor a linked).bind fun made b after => ?_
    split <;> exact ensures_pure after
  · exact ensures_pure linked

theorem applyFolding_upholds (markFinal : Bool) (stats : Stats) (e : Edit) :
    (Edit.applyFolding markFinal stats e).Upholds := by
  intro a linked
  unfold Edit.applyFolding
  split
  · exact ensures_pure linked
  · rename_i assignment _
    refine (fold_upholds markFinal e assignment a linked).bind fun made b after => ?_
    split <;> exact ensures_pure after

theorem placeDeclarations_upholds (o : Options) (root : NodeId) :
    (placeDeclarations o root).Upholds := by
  intro a linked
  unfold placeDeclarations plan Edit.applyAll
  rw [bind_assoc]
  refine ensures_get ((planWithin_upholds o _ root a linked).bind fun edits b planned => ?_)
  refine (upholds_foldlM (fun stats e _ => ?_) _ b planned).bind fun stats c inserted =>
    upholds_foldlM (fun stats e _ => ?_) stats c inserted
  · exact applyInsertion_upholds o.markFinal stats e
  · exact applyFolding_upholds o.markFinal stats e

end Editing

namespace Arena

variable {a : Arena} {above : List NodeId} {root x y : NodeId}

theorem Reached.mem_ids (linked : a.WellLinked) (levels : Nat) (reached : a.Reached above x)
    (enough : a.size < levels + above.length) :
    y ∈ (a.expandBelow 0 levels above x).ids ↔ ReflTransGen a.LeadsTo x y := by
  induction levels generalizing above x with
  | zero =>
    have bound := reached.length_le
    omega
  | succ levels ih =>
    obtain ⟨n, found⟩ := reached.exists_row
    rw [expandBelow_succ linked reached found levels, Tree.ids_node, Kind.children_map,
      List.flatMap_map, List.mem_cons, List.mem_flatMap, ReflTransGen.cases_head_iff]
    have further (c : NodeId) (listed : c ∈ n.kind.children) :
        y ∈ (a.expandBelow 0 levels (x :: above) c).ids ↔ ReflTransGen a.LeadsTo c y := by
      apply ih (reached.child linked ⟨n, found, listed⟩)
      rw [List.length_cons]
      omega
    apply or_congr eq_comm
    constructor
    · rintro ⟨c, listed, inside⟩
      exact ⟨c, ⟨n, found, listed⟩, (further c listed).mp inside⟩
    · rintro ⟨c, ⟨m, row, listed⟩, path⟩
      rw [found, Option.some.injEq] at row
      subst row
      exact ⟨c, listed, (further c listed).mpr path⟩

theorem WellLinked.mem_ids_view (linked : a.WellLinked) (inside : root.index < a.size) :
    x ∈ (a.view root).ids ↔ ReflTransGen a.LeadsTo root x :=
  (Reached.root inside).mem_ids linked _ (by simp)

/- The table is filled owner by owner. No later owner overwrites an entry, since each node has one
owner at most. -/
theorem Linked.adoptAll_run (linked : a.Linked) (owners : List NodeId)
    (inside : ∀ x ∈ owners, x.index < a.size) {b : Arena} (nodes : b.nodes = a.nodes) :
    ∃ c, Editing.adoptAll owners b = .ok () c ∧ c.nodes = a.nodes ∧
      ∀ y, (∀ x ∈ owners, a.LeadsTo x y → c.parent? y = some x) ∧
        ((∀ x ∈ owners, ¬ a.LeadsTo x y) → c.parent? y = b.parent? y) := by
  induction owners generalizing b with
  | nil => exact ⟨b, rfl, nodes, by simp⟩
  | cons owner rest ih =>
    obtain ⟨n, row⟩ := (Reached.root (inside owner (by simp))).exists_row
    have answer : b.kind owner = .ok n.kind := kind_of_row (by rw [nodes, row])
    have step : (Editing.query (·.kind owner) >>= fun kind => modify fun a =>
        a.adopt owner kind.children) b = .ok () (b.adopt owner n.kind.children) := by
      rw [bind_ok (Editing.query_ok answer)]
      rfl
    obtain ⟨c, run, same, found⟩ := ih (fun x later => inside x (by simp [later]))
      (b := b.adopt owner n.kind.children) nodes
    refine ⟨c, ?_, same, fun y => ⟨?_, ?_⟩⟩
    · exact (bind_ok step _).trans run
    · intro x member link
      by_cases later : ∃ z ∈ rest, a.LeadsTo z y
      · obtain ⟨z, listed, other⟩ := later
        rw [linked.owner_unique link other]
        exact (found y).1 z listed other
      · push Not at later
        have here : x = owner := by
          rcases List.mem_cons.mp member with same | listed
          · exact same
          · exact absurd link (later x listed)
        subst here
        obtain ⟨m, row', listed⟩ := link
        rw [row, Option.some.injEq] at row'
        subst row'
        rw [(found y).2 later, parent?_adopt, if_pos listed]
    · intro none
      have unlisted : y ∉ n.kind.children := fun listed => none owner (by simp) ⟨n, row, listed⟩
      rw [(found y).2 fun x later => none x (by simp [later]), parent?_adopt, if_neg unlisted]

theorem Linked.rebuildParents_run (linked : a.Linked) (inside : root.index < a.size) :
    ∃ b, Editing.rebuildParents root a = .ok () b ∧ b.nodes = a.nodes ∧
      ∀ x, (TransGen a.LeadsTo root x → b.parent? x = a.parent? x) ∧
        (¬ TransGen a.LeadsTo root x → b.parent? x = none) := by
  have known : ∀ x ∈ (a.view root).ids, x.index < a.size := by
    intro x member
    rcases ((linked.mem_ids_view inside).mp member).cases_tail with rfl | ⟨z, -, link⟩
    · exact inside
    · exact linked.inRange z x link
  obtain ⟨b, run, nodes, found⟩ :=
    linked.adoptAll_run (a.view root).ids known (b := { a with parents := {} }) rfl
  have whole := whole_eq_view a root (linked.no_gap inside)
  refine ⟨b, ?_, nodes, fun x => ⟨?_, ?_⟩⟩
  · rw [Editing.rebuildParents, bind_ok (Editing.query_ok whole)]
    exact run
  · intro path
    obtain ⟨z, above, link⟩ := TransGen.tail'_iff.mp path
    rw [(found x).1 z ((linked.mem_ids_view inside).mpr above) link, (linked.parents z x).mpr link]
  · intro apart
    rw [(found x).2]
    · simp [parent?, SideTable.get?]
    · intro z member link
      exact apart (TransGen.tail' ((linked.mem_ids_view inside).mp member) link)

end Arena

/-- What can be done to an arena: nodes added and moved about, a body added, or the declarations
below a node given new places. -/
inductive Operation where
  | add (kind : Kind NodeId) (note : Annotation)
  | remove (child : NodeId)
  | insertBefore (anchor child : NodeId)
  | replace (old new : NodeId)
  | lower (body : Body)
  | place (pass : Pass) (root : NodeId)

namespace Operation

def perform : Operation → Editing Unit
  | add kind note => discard (Editing.add kind note)
  | remove child => Editing.remove child
  | insertBefore anchor child => Editing.insertBefore anchor child
  | replace old new => Editing.replace old new
  | lower body => modify fun a => (body.addTo.run a).2
  | place pass root => fun a => (pass.run root a).2

/-- What has to be seen to beforehand. A node names children that are there, each once, and none
that belongs to another; and a node that is put in has no parent and is not above its new place. -/
def Allowed (a : Arena) : Operation → Prop
  | add kind _ => kind.children.Nodup ∧ ∀ c ∈ kind.children, c.index < a.size ∧ a.parent? c = none
  | insertBefore anchor child => a.Spare child anchor
  | replace old new => a.Spare new old
  | remove _ | lower _ | place _ _ => True

theorem perform_ensures {a : Arena} (linked : a.Linked) {o : Operation} (allowed : o.Allowed a) :
    o.perform.Ensures a fun _ b => b.Linked := by
  cases o with
  | add kind note =>
    exact linked.push (fun c child => (allowed.2 c child).1) allowed.1
      fun c child => (allowed.2 c child).2
  | remove child => exact Editing.remove_upholds child a linked
  | insertBefore anchor child => exact Editing.insertBefore_ensures linked allowed
  | replace old new => exact Editing.replace_ensures linked allowed
  | lower body => exact body.addTo_linked a linked
  | place pass root =>
    have placed := Editing.placeDeclarations_upholds pass.options root a linked
    unfold Editing.Ensures perform Pass.run
    unfold Editing.Ensures at placed
    split at placed <;> simp_all

end Operation

/-- The arena as a computation leaves it, whether that succeeds or fails. -/
def Editing.after {α : Type} (x : Editing α) (a : Arena) : Arena :=
  match x a with
  | .ok _ b => b
  | .error _ b => b

theorem Editing.Ensures.linked {α : Type} {x : Editing α} {a : Arena}
    (holds : x.Ensures a fun _ b => b.Linked) : (x.after a).Linked := by
  unfold Ensures at holds
  unfold after
  split at holds <;> simp_all

namespace Arena

/-- Arenas with a history: at first there is nothing, and each operation, failed ones too, goes on
from what the one before has left. -/
inductive Built : Arena → Prop
  | empty : Built {}
  | step {a : Arena} (built : Built a) (o : Operation) (allowed : o.Allowed a) :
    Built (o.perform.after a)

theorem Built.linked {a : Arena} (built : a.Built) : a.Linked := by
  induction built with
  | empty => exact linked_empty
  | step _ o allowed before => exact (o.perform_ensures before allowed).linked

/-- Whatever has been done to an arena, links and parents are in order, and below any node the
parents that are kept are those found by looking for them anew. -/
theorem links_of_built {a : Arena} (built : a.Built) :
    a.Linked ∧ ∀ root : NodeId, root.index < a.size →
      ∃ b, Editing.rebuildParents root a = .ok () b ∧ b.nodes = a.nodes ∧
        ∀ x, (TransGen a.LeadsTo root x → b.parent? x = a.parent? x) ∧
          (¬ TransGen a.LeadsTo root x → b.parent? x = none) :=
  ⟨built.linked, fun _ inside => built.linked.rebuildParents_run inside⟩

end Arena

/-- `int v; while (c) v = 1;` -/
def Body.spinning : Body :=
  braces [declareInt "v", plain (.whileLoop (read "c") (setOne "v"))]

namespace Arena

def loosened : Arena :=
  let lowered := (Operation.lower .spinning).perform.after {}
  (Operation.remove ⟨6⟩).perform.after ((Operation.remove ⟨6⟩).perform.after lowered)

def reordered : Arena :=
  let moved := (Operation.insertBefore ⟨7⟩ ⟨6⟩).perform.after loosened
  (Operation.place {} ⟨8⟩).perform.after moved

theorem built_loosened : loosened.Built :=
  ((Built.empty.step (.lower .spinning) trivial).step (.remove ⟨6⟩) trivial).step (.remove ⟨6⟩)
    trivial

theorem spare_loosened : loosened.Spare ⟨6⟩ ⟨7⟩ where
  inside := by decide +kernel
  detached := by decide +kernel
  notAbove path := by
    -- upwards from the loop there is only the block
    have outer : loosened.parent? ⟨7⟩ = some ⟨8⟩ := by decide +kernel
    have top : loosened.parent? ⟨8⟩ = none := by decide +kernel
    exact built_loosened.linked.not_below outer top (by decide) path

/- The value is now below the new declaration. What is left of the assignment has a parent still,
but is no longer to be found. -/
theorem links_of_built_reordered :
    reordered.Built ∧ reordered.parent? ⟨4⟩ = some ⟨11⟩ ∧ reordered.parent? ⟨5⟩ = some ⟨6⟩ ∧
      ∃ b, Editing.rebuildParents ⟨8⟩ reordered = .ok () b ∧ b.parent? ⟨4⟩ = some ⟨11⟩ ∧
        b.parent? ⟨5⟩ = none := by
  have built : reordered.Built := (built_loosened.step (.insertBefore ⟨7⟩ ⟨6⟩) spare_loosened).step
    (.place {} ⟨8⟩) trivial
  have value : reordered.parent? ⟨4⟩ = some ⟨11⟩ := by decide +kernel
  have binding : reordered.parent? ⟨11⟩ = some ⟨12⟩ := by decide +kernel
  have declaration : reordered.parent? ⟨12⟩ = some ⟨8⟩ := by decide +kernel
  have rest : reordered.parent? ⟨5⟩ = some ⟨6⟩ := by decide +kernel
  have gone : reordered.parent? ⟨6⟩ = none := by decide +kernel
  obtain ⟨linked, rebuilt⟩ := links_of_built built
  obtain ⟨b, run, -, found⟩ := rebuilt ⟨8⟩ (by decide +kernel)
  have reached : TransGen reordered.LeadsTo ⟨8⟩ ⟨4⟩ :=
    .tail (.tail (.single ((linked.parents _ _).mp declaration))
      ((linked.parents _ _).mp binding)) ((linked.parents _ _).mp value)
  exact ⟨built, value, rest, b, run, ((found ⟨4⟩).1 reached).trans value,
    (found ⟨5⟩).2 (linked.not_below rest gone (by decide))⟩

end Arena

end LocalScope
