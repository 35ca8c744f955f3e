import LocalScope.Code.Operator

namespace LocalScope

inductive Primitive where
  | boolean | byte | char | short | int | long | float | double
deriving DecidableEq, Repr

instance : Vocabulary Primitive where
  words := [.boolean, .byte, .char, .short, .int, .long, .float, .double]
  spelling
    | .boolean => "boolean"
    | .byte => "byte"
    | .char => "char"
    | .short => "short"
    | .int => "int"
    | .long => "long"
    | .float => "float"
    | .double => "double"

inductive Ty where
  | primitive (p : Primitive)
  | named (name : String) (args : List Ty)
  | array (element : Ty)
deriving Repr

namespace Ty

mutual

def beq : Ty → Ty → Bool
  | primitive p, primitive q => p == q
  | named n as, named m bs => n == m && beqList as bs
  | array s, array t => beq s t
  | _, _ => false

def beqList : List Ty → List Ty → Bool
  | [], [] => true
  | s :: ss, t :: ts => beq s t && beqList ss ts
  | _, _ => false

end

instance : BEq Ty := ⟨beq⟩

mutual

theorem eq_of_beq : ∀ s t : Ty, beq s t = true → s = t
  | primitive p, t, same => by
    cases t <;> simp [beq] at same
    rw [same]
  | named n as, t, same => by
    cases t <;> simp [beq] at same
    rw [same.1, eq_of_beqList as _ same.2]
  | array s, t, same => by
    cases t <;> simp [beq] at same
    rw [eq_of_beq s _ same]

theorem eq_of_beqList : ∀ ss ts : List Ty, beqList ss ts = true → ss = ts
  | [], ts, same => by
    cases ts <;> simp [beqList] at same
    rfl
  | s :: ss, ts, same => by
    cases ts <;> simp [beqList] at same
    rw [eq_of_beq s _ same.1, eq_of_beqList ss _ same.2]

end

mutual

theorem beq_refl : ∀ t : Ty, beq t t = true
  | primitive p => by simp [beq]
  | named n as => by simp [beq, beqList_refl as]
  | array t => by simp [beq, beq_refl t]

theorem beqList_refl : ∀ ts : List Ty, beqList ts ts = true
  | [] => by simp [beqList]
  | t :: ts => by simp [beqList, beq_refl t, beqList_refl ts]

end

instance : DecidableEq Ty := fun s t =>
  if same : beq s t = true then isTrue (eq_of_beq s t same)
  else isFalse fun eq => same (eq ▸ beq_refl s)

/- The type as source code writes it: `Map<String, int[]>`. -/
mutual

def text : Ty → String
  | primitive p => Vocabulary.spelling p
  | named name [] => name
  | named name (first :: rest) => name ++ "<" ++ text first ++ restText rest ++ ">"
  | array element => text element ++ "[]"

def restText : List Ty → String
  | [] => ""
  | t :: ts => ", " ++ text t ++ restText ts

end

end Ty

end LocalScope
