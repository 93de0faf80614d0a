import Formulary.Zone.Reach

/-!
Giving the symbols of a zone a value. A value from which its own symbol would be reached is
refused, and then nothing is bound.
-/

namespace Formulary.Zone

/-- Sets or clears the value of every symbol of the given name that is not shadowed. -/
def setAll (z : Zone) (name : String) (bound : Option NodeId) : Zone :=
  { z with
    nodes := z.nodes.map fun n =>
      if n.record.isOpen name then { n with record := n.record.setBound bound } else n }

/-- How many symbols `setAll` sets. -/
def places (z : Zone) (name : String) : Nat := z.nodes.countP (·.record.isOpen name)

/-- Inserts a value and binds it to a name. Unbound symbols in the value are the zone's own. -/
def bindValue (name : String) (value : Expr) : ZoneM Nat := do
  let id ← insertIn true [] value
  fun z =>
    if z.reaches id name then .error (.cyclicBinding name) z
    else .ok (z.places name) (z.setAll name (some id))

/-- Binds a name to a value, or unbinds it, and publishes that to a table if it succeeds. Returns
the number of symbols concerned. -/
def assign {τ : Type} [SymbolTable τ] (name : String) (value : Option Expr) (z : Zone)
    (table : τ) : Except ZoneError Nat × Zone × τ :=
  match value with
  | none => (.ok (z.places name), z.setAll name none, SymbolTable.publish table name none)
  | some e =>
    match (bindValue name e).run z with
    | .ok count z => (.ok count, z, SymbolTable.publish table name (some e))
    | .error error z => (.error error, z, table)

end Formulary.Zone
