import Vyakarana.Proofs.Derivation.Spoken

/-!
Sound rules that exchange sounds.

What such a rule does at a site is one of a few things: it puts a substitute in the place of the sound
there, of the next one or of both, and records its number, or it does nothing. A relation tells which
substitutes belong to which number. What each exchange keeps, the rule keeps, so that it need not be
opened again for the next thing that it keeps.
-/

namespace Vyakarana

-- What becomes of the derivation of a site by an exchange that `may` has.
inductive Site.Exchange (may : Rule → Text → Prop) (s : Site) : Derivation → Prop
  | still : Site.Exchange may s s.derivation
  | here {rule : Rule} {sub : Text} (h : may rule sub) :
      Site.Exchange may s ((s.replace sub).record rule)
  | next {rule : Rule} {sub : Text} (h : may rule sub) :
      Site.Exchange may s ((s.replaceNext sub).record rule)
  | both {rule : Rule} {sub : Text} (h : may rule sub) :
      Site.Exchange may s ((s.merge sub).record rule)

-- Substitutes made of sounds, under one of these numbers.
structure Substitutes (numbers : List Rule) (rule : Rule) (sub : Text) : Prop where
  numbered : rule ∈ numbers
  spoken : sub.Spoken

namespace Site.Exchange

variable {may : Rule → Text → Prop} {numbers : List Rule} {s : Site} {e : Derivation}

theorem background (h : s.Exchange may e) : e.background = s.derivation.background := by
  cases h with
  | still => rfl
  | here => rw [Derivation.background_record, background_replace]
  | next => rw [Derivation.background_record, background_replaceNext]
  | both => rw [Derivation.background_record, background_merge]

theorem spoken (h : s.Exchange (Substitutes numbers) e) (hs : s.derivation.Spoken) : e.Spoken := by
  cases h with
  | still => exact hs
  | here h => exact (Derivation.spoken_record _).mpr (spoken_replace hs h.spoken)
  | next h => exact (Derivation.spoken_record _).mpr (spoken_replaceNext hs h.spoken)
  | both h => exact (Derivation.spoken_record _).mpr (spoken_merge hs h.spoken)

end Site.Exchange

namespace SoundRule

-- Whatever the rule does is such an exchange.
def Exchanges (r : SoundRule) (may : Rule → Text → Prop) : Prop :=
  ∀ s : Site, s.Exchange may (r.act s).1

variable {r : SoundRule} {may : Rule → Text → Prop} {rule : Rule} {applies : Site → Bool}
  {sub : Site → Text}

theorem exchanges_replace (h : ∀ s, may rule (sub s)) :
    (recorded rule applies fun s => s.replace (sub s)).Exchanges may :=
  fun s => .here (h s)

theorem Exchanges.keepsBackground (h : r.Exchanges may) : r.KeepsBackground :=
  fun s => (h s).background

theorem Exchanges.keepsSpoken {numbers : List Rule} (h : r.Exchanges (Substitutes numbers)) :
    r.KeepsSpoken :=
  fun s hs => (h s).spoken hs

end SoundRule

end Vyakarana
