/-! # Names of enumerators -/

namespace LibNokogiri.Internal

structure EnumPairT (α : Type) where
  value : α
  name : String

section Names

variable {α : Type} [BEq α] (m : List (EnumPairT α)) (v : α)

def enumName : String :=
  match m.find? fun t => t.value == v with
  | some pos => pos.name
  | none => "?"

end Names

end LibNokogiri.Internal
