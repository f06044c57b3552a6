import Vyakarana.Grammar.Conjugation
import Vyakarana.Request.Argument

/-!
The finite form that a request asks for.
-/

namespace Vyakarana.VerbForm

-- The third person singular active is asked for unless the fields say otherwise.
def ofFields (lakara purusha vacana prayoga : FieldValue) : Except (List FieldError) VerbForm :=
  match lakara.readListed Lakara.all Lakara.spelling,
    purusha.readOr .prathama (FieldValue.readListed Purusha.all Purusha.spelling),
    vacana.readOr .eka (FieldValue.readListed Vacana.all Vacana.spelling),
    prayoga.readOr .kartari (FieldValue.readListed Prayoga.all Prayoga.spelling) with
  | .ok l, .ok p, .ok v, .ok y => .ok ⟨l, p, v, y⟩
  | l, p, v, y =>
    .error (fieldErrors "lakara" l ++ fieldErrors "purusha" p ++ fieldErrors "vacana" v ++
      fieldErrors "prayoga" y)

-- The form that four words name, read in this order.
def read (lakara purusha vacana prayoga : Text) : Except ArgumentError VerbForm := do
  let l ← Lakara.read lakara
  let p ← Purusha.read purusha
  let v ← Vacana.read vacana
  let y ← Prayoga.read prayoga
  return ⟨l, p, v, y⟩

end Vyakarana.VerbForm
