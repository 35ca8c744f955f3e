import Mathlib
import LocalScope.Document.Read
import LocalScope.Document.Write

namespace LocalScope

open Json (Value)

def Constant.isFinite : Constant → Bool
  | .float x => x.isFinite
  | _ => true

namespace Vocabulary

/-- Every word is listed, and no two are spelled alike. -/
class Lawful (α : Type) [Vocabulary α] : Prop where
  listed : ∀ w : α, w ∈ words
  distinct : (spellings α).Nodup

theorem ofSpelling?_spelling {α : Type} [Vocabulary α] [Lawful α] (w : α) :
    ofSpelling? (spelling w) = some w := by
  unfold ofSpelling?
  cases found : words.find? fun v : α => spelling v == spelling w with
  | none =>
    have apart := List.find?_eq_none.mp found w (Lawful.listed w)
    simp at apart
  | some v =>
    have alike : spelling v = spelling w := by simpa using List.find?_some found
    have same := List.inj_on_of_nodup_map Lawful.distinct (Lawful.listed v) (Lawful.listed w) alike
    rw [same]

instance : Lawful Tag where
  listed w := by cases w <;> decide
  distinct := by decide

instance : Lawful Primitive where
  listed w := by cases w <;> decide
  distinct := by decide

instance : Lawful UnaryOp where
  listed w := by cases w <;> decide
  distinct := by decide

instance : Lawful AssignOp where
  listed
    | .plain => by decide
    | .compound op => by cases op <;> decide
  distinct := by decide

instance : Lawful BinaryOp where
  listed
    | .arithmetic op => by cases op <;> decide
    | .comparison op => by cases op <;> decide
    | .and => by decide
    | .or => by decide
  distinct := by decide

end Vocabulary

namespace Except

variable {ε α β : Type}

@[simp] theorem toOption_ok (y : α) : (Except.ok y : Except ε α).toOption = some y := rfl

@[simp] theorem toOption_error (e : ε) : (Except.error e : Except ε α).toOption = none := rfl

@[simp] theorem toOption_map (g : α → β) (x : Except ε α) :
    (g <$> x).toOption = x.toOption.map g := by
  cases x <;> rfl

@[simp] theorem toOption_bind (x : Except ε α) (f : α → Except ε β) :
    (x >>= f).toOption = x.toOption.bind fun y => (f y).toOption := by
  cases x <;> rfl

theorem bind_eq_ok {x : Except ε α} {f : α → Except ε β} {z : β} (found : (x >>= f) = .ok z) :
    ∃ y, x = .ok y ∧ f y = .ok z := by
  cases x with
  | error e => cases found
  | ok y => exact ⟨y, rfl, found⟩

theorem map_eq_ok {g : α → β} {x : Except ε α} {z : β} (found : g <$> x = .ok z) :
    ∃ y, x = .ok y ∧ g y = z := by
  cases x with
  | error e => cases found
  | ok y => exact ⟨y, rfl, Except.ok.inj found⟩

theorem toOption_eq_some {x : Except ε α} {y : α} : x.toOption = some y ↔ x = .ok y := by
  cases x <;> simp

theorem toOption_eq_none {x : Except ε α} : x.toOption = none ↔ ∃ e, x = .error e := by
  cases x <;> simp

end Except

namespace Fields

variable {ρ α β : Type}

/- Which of several faults is reported does not matter here: a reading gives a value or none. -/
def value? (f : Fields ρ α) (members : List (String × ρ)) : Option α := (f members).toOption

def valuesOf (name : String) (members : List (String × ρ)) : List ρ :=
  members.filterMap fun (n, v) => if n = name then some v else none

@[simp] theorem valuesOf_nil (name : String) : valuesOf name ([] : List (String × ρ)) = [] := rfl

@[simp] theorem valuesOf_cons (name : String) (m : String × ρ) (rest : List (String × ρ)) :
    valuesOf name (m :: rest) =
      if m.1 = name then m.2 :: valuesOf name rest else valuesOf name rest := by
  by_cases same : m.1 = name <;> simp [valuesOf, same]

@[simp] theorem valuesOf_append (name : String) (first second : List (String × ρ)) :
    valuesOf name (first ++ second) = valuesOf name first ++ valuesOf name second := by
  simp [valuesOf]

@[simp] theorem valuesOf_map {σ : Type} (name : String) (f : σ → ρ)
    (members : List (String × σ)) :
    valuesOf name (members.map fun m => (m.1, f m.2)) = (valuesOf name members).map f := by
  induction members with
  | nil => rfl
  | cons m rest ih => by_cases same : m.1 = name <;> simp [same, ih]

/-- What a field gives: its one value as it is read, or what stands for a field that is missing. -/
def only (absent : Option α) (read : ρ → Option α) : List ρ → Option α
  | [] => absent
  | [v] => read v
  | _ => none

@[simp] theorem only_nil (absent : Option α) (read : ρ → Option α) :
    only absent read [] = absent := rfl

@[simp] theorem only_singleton (absent : Option α) (read : ρ → Option α) (v : ρ) :
    only absent read [v] = read v := rfl

@[simp] theorem only_map {σ : Type} (absent : Option α) (read : ρ → Option α) (f : σ → ρ)
    (vs : List σ) : only absent read (vs.map f) = only absent (fun v => read (f v)) vs := by
  match vs with
  | [] | [_] | _ :: _ :: _ => rfl

theorem mem_valuesOf {name : String} {members : List (String × ρ)} {v : ρ}
    (listed : v ∈ valuesOf name members) : (name, v) ∈ members := by
  induction members with
  | nil => cases listed
  | cons m rest ih =>
    by_cases same : m.1 = name
    · rw [valuesOf_cons, if_pos same] at listed
      rcases List.mem_cons.mp listed with rfl | later
      · exact same ▸ List.mem_cons_self
      · exact List.mem_cons_of_mem _ (ih later)
    · rw [valuesOf_cons, if_neg same] at listed
      exact List.mem_cons_of_mem _ (ih listed)

theorem only_eq_some {absent : Option α} {read : ρ → Option α} {vs : List ρ} {x : α}
    (found : only absent read vs = some x) : absent = some x ∨ ∃ v ∈ vs, read v = some x := by
  match vs with
  | [] => exact .inl found
  | [v] => exact .inr ⟨v, List.mem_singleton_self v, found⟩
  | _ :: _ :: _ => cases found

@[simp] theorem run_toOption (f : Fields ρ α) (members : List (String × ρ)) :
    (f.run members).toOption = f.value? members := by
  unfold run value?
  cases f members <;> rfl

@[simp] theorem value?_pure (x : α) (members : List (String × ρ)) :
    (pure x : Fields ρ α).value? members = some x := rfl

@[simp] theorem value?_seq (f : Fields ρ (α → β)) (x : Fields ρ α) (members : List (String × ρ)) :
    (f <*> x).value? members = (f.value? members).bind fun g => (x.value? members).map g := by
  change (both f x members).toOption = _
  unfold both value?
  cases f members <;> cases x members <;> rfl

@[simp] theorem value?_map (g : α → β) (x : Fields ρ α) (members : List (String × ρ)) :
    (g <$> x).value? members = (x.value? members).map g :=
  value?_seq (pure g) x members

theorem positions_values (name : String) (members : List (String × ρ)) :
    (positions name members).map Prod.snd = valuesOf name members := by
  have shifted (start : Nat) :
      ((members.zipIdx start).filterMap fun m =>
        if m.1.1 = name then some (m.2, m.1.2) else none).map Prod.snd = valuesOf name members := by
    induction members generalizing start with
    | nil => rfl
    | cons m rest ih =>
      have later := ih (start + 1)
      by_cases same : m.1 = name <;> simpa [same] using later
  exact shifted 0

theorem value?_field (name : String) (read : ρ → Reading α) (absent : Nat → Except Located α)
    (members : List (String × ρ)) :
    (field name read absent).value? members =
      only (absent members.length).toOption (fun v => (read v).toOption)
        (valuesOf name members) := by
  rw [← positions_values]
  unfold value? field
  cases positions name members with
  | nil => rfl
  | cons first others =>
    cases result : read first.2 <;> cases others <;> simp [result, only]

theorem value?_required (name : String) (read : ρ → Reading α) (members : List (String × ρ)) :
    (required name read).value? members =
      only none (fun v => (read v).toOption) (valuesOf name members) :=
  value?_field name read _ members

theorem value?_withDefault (name : String) (default : α) (read : ρ → Reading α)
    (members : List (String × ρ)) :
    (withDefault name default read).value? members =
      only (some default) (fun v => (read v).toOption) (valuesOf name members) :=
  value?_field name read _ members

end Fields

namespace Write

theorem read_char (c : Char) : Read.char (.string (.singleton c)) = .ok c := by
  simp [Read.char]

theorem read_binary64 (x : Binary64) :
    (Read.binary64 (binary64 x)).toOption = if x.isFinite then some x else none := by
  unfold binary64
  split <;> rfl

theorem read_int64 (n : Int64) : Read.int64 (.int n.toInt) = .ok n := by
  have within : Int64.minValue.toInt ≤ n.toInt ∧ n.toInt ≤ Int64.maxValue.toInt :=
    ⟨n.minValue_le_toInt, Int64.toInt_le n⟩
  rw [Value.int, Read.int64, if_pos within, Int64.ofInt_toInt]

theorem read_id (id : UInt32) : Read.id? (.of (.nat id.toNat)) = .ok (some id) := by
  have within : (0 : Int) ≤ id.toNat ∧ (id.toNat : Int) < UInt32.size :=
    ⟨Int.natCast_nonneg _, by exact_mod_cast id.toNat_lt⟩
  simp only [Value.nat, Found.of, Read.id?, if_pos within]
  simp

theorem read_word {α : Type} [Vocabulary α] [Vocabulary.Lawful α] (setting : Setting) (w : α) :
    Read.plainWord α setting (word w) = .ok w := by
  have known := Vocabulary.ofSpelling?_spelling w
  simp only [Read.plainWord, word, Read.word, known, bind, Except.bind]
  rfl

theorem read_named (setting : Setting) (members : List (String × Value)) :
    Read.named setting (.object members) = Read.namedFields.run (Read.tyParts setting members) :=
  rfl

mutual

theorem read_ty (setting : Setting) : ∀ t : Ty, Read.ty setting (ty t) = .ok t
  | .primitive p => by
    have primitive := read_word setting p
    simp only [word] at primitive
    simp only [ty, Read.ty, primitive, if_true]
    rfl
  | .named name [] => by
    apply Except.toOption_eq_some.mp
    simp [ty, Read.ty, read_named, Read.namedFields, Read.tyParts, Read.string,
      Fields.value?_required, Fields.value?_withDefault]
  | .named name (a :: as) => by
    have args : Read.tyList setting (.array (ty a :: tys as)) = .ok (a :: as) :=
      read_tys setting (a :: as)
    apply Except.toOption_eq_some.mp
    simp [ty, Read.ty, read_named, Read.namedFields, Read.tyParts, Read.string,
      Fields.value?_required, Fields.value?_withDefault, args]
  | .array element => by
    rw [ty, Read.ty, read_ty setting element]
    rfl

theorem read_tys (setting : Setting) : ∀ ts : List Ty, Read.tys setting (tys ts) = .ok ts
  | [] => rfl
  | t :: ts => by
    rw [tys, Read.tys, read_ty setting t, read_tys setting ts]
    rfl

end

theorem read_constant (setting : Setting) (c : Constant) :
    (Read.constant setting (constant c)).toOption = if c.isFinite then some c else none := by
  cases c with
  | null => rfl
  | bool b => rfl
  | int n => simp [constant, Read.constant, Read.word, Read.content, read_int64, Constant.isFinite]
  | float x =>
    have back := read_binary64 x
    have whole : (Read.constant setting (constant (.float x))).toOption =
        (Read.binary64 (binary64 x)).toOption.map .float := by
      simp [constant, Read.constant, Read.word, Read.content]
    rw [whole, back, Constant.isFinite]
    split <;> rfl
  | char c => simp [constant, Read.constant, Read.word, Read.content, read_char, Constant.isFinite]
  | string s => rfl

end Write

end LocalScope
