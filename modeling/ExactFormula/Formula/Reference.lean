import ExactFormula.Value

/-!
References to names. A name is looked up in the context, where a default may stand in, or it has a
resolver of its own.
-/

namespace ExactFormula

abbrev Resolver := Context → Outcome

inductive Resolution
  | lookup (default : Option Value)
  | custom (resolver : Resolver)

structure Reference where
  name : String
  resolution : Resolution

def Reference.resolve (ctx : Context) (r : Reference) : Outcome :=
  match r.resolution with
  | .lookup default =>
    match ctx.get? r.name, default with
    | some v, _ => .ok v
    | none, some v => .ok v
    | none, none => .error (.unknownReference r.name)
  | .custom resolver => resolver ctx

def Reference.isCustom (r : Reference) : Bool :=
  match r.resolution with
  | .lookup _ => false
  | .custom _ => true

end ExactFormula
