namespace LocalScope

/- Identifiers are row numbers of some table. `Key` is what a table needs of them. -/
class Key (κ : Type) where
  index : κ → Nat
  ofIndex : Nat → κ
  index_injective : ∀ a b : κ, index a = index b → a = b

/-- The number of a node in its arena. -/
structure NodeId where
  index : Nat
deriving DecidableEq, Repr

/-- The number of a local variable's descriptor; documents give it 32 bits. -/
structure VariableId where
  index : UInt32
deriving DecidableEq, Repr

/-- The number of the member a node was recovered from; documents give it 32 bits. -/
structure MemberId where
  index : UInt32
deriving DecidableEq, Repr

instance : Key NodeId where
  index := NodeId.index
  ofIndex := NodeId.mk
  index_injective a b same := by
    cases a
    cases b
    simpa using same

instance : Key VariableId where
  index v := v.index.toNat
  ofIndex n := ⟨UInt32.ofNat n⟩
  index_injective a b same := by
    cases a
    cases b
    simpa [UInt32.toNat_inj] using same

instance : Key MemberId where
  index m := m.index.toNat
  ofIndex n := ⟨UInt32.ofNat n⟩
  index_injective a b same := by
    cases a
    cases b
    simpa [UInt32.toNat_inj] using same

/- How identifiers are named in messages, and the longer form used when one stands alone. -/
def NodeId.text (id : NodeId) : String := "NodeId" ++ toString id.index
def NodeId.longText (id : NodeId) : String := "NodeId(" ++ toString id.index ++ ")"
def VariableId.text (id : VariableId) : String := "VariableId" ++ toString id.index.toNat
def MemberId.text (id : MemberId) : String := "MemberRefId" ++ toString id.index.toNat

/-- What a node carries besides its kind: the variable it binds or refers to, and the member it
was recovered from. -/
structure Annotation where
  variableId : Option VariableId := none
  memberId : Option MemberId := none
deriving DecidableEq, Repr

end LocalScope
