import Vyakarana.Proofs.Grammar.Conjugation
import Vyakarana.Proofs.Grammar.TermRules

/-!
The row of a verb form before its stem is shaped.

The root, or the root with Ric, is followed by the suffix of the stem and the ending, in the perfect
by the ending alone or by Am, the root kf and the ending. The terms but for the root itself are
known beforehand: they depend on the form, on the set of endings and on the class of the root.
-/

namespace Vyakarana

namespace Root

-- The root when it has entered the derivation.
def entered (root : Root) : Term :=
  ((((Term.ofRoot root.upadesha root.gana root.number).addTag .dhatu).stripped
    root.upadesha).replaceInitial).nasalize

end Root

-- A suffix as it stands in the row.
def suffixTerm (u : Text) (tags : List Tag) : Term := ((Term.ofUpadesha u).addTags tags).stripped u

-- The suffix that a lakara is, before endings take its place.
def lakaraTerm (lakara : Lakara) : Term := suffixTerm lakara.upadesha [.pratyaya]

-- Ric makes a root of a root.
def ricTerm : Term := (suffixTerm "Ric".toList [.pratyaya]).addTag .dhatu

namespace Root

def stemInit (root : Root) : List Term := if root.gana = 10 then [root.entered] else []

def stemLast (root : Root) : Term := if root.gana = 10 then ricTerm else root.entered

end Root

namespace Term

theorem kind_stripped (u : Text) (t : Term) : (t.stripped u).kind = t.kind :=
  (Stripping.run_sheds t u).term.kind

theorem kind_replaceInitial (t : Term) : t.replaceInitial.kind = t.kind := by
  unfold replaceInitial
  repeat' split
  all_goals simp

theorem kind_nasalize (t : Term) : t.nasalize.kind = t.kind := by
  unfold nasalize
  split <;> simp

end Term

namespace Root

variable (root : Root)

theorem kind_entered :
    root.entered.kind = (Term.ofRoot root.upadesha root.gana root.number).kind := by
  rw [entered, Term.kind_nasalize, Term.kind_replaceInitial, Term.kind_stripped]
  rfl

theorem hasTag_entered {x : Tag} (hx : x.isMark = false) :
    root.entered.hasTag x = (x == .dhatu) := by
  rw [Term.hasTag_eq_of_kind root.kind_entered hx, Bool.eq_iff_iff]
  simp [Term.hasTag, Term.ofRoot]

theorem gana_entered : root.entered.gana = some root.gana :=
  calc root.entered.gana = root.entered.kind.gana := rfl
    _ = some root.gana := by rw [kind_entered]; rfl

theorem stem_cases :
    root.gana = 10 ∧ root.stemInit = [root.entered] ∧ root.stemLast = ricTerm ∨
      root.gana ≠ 10 ∧ root.stemInit = [] ∧ root.stemLast = root.entered := by
  by_cases h : root.gana = 10
  · exact .inl ⟨h, if_pos h, if_pos h⟩
  · exact .inr ⟨h, if_neg h, if_neg h⟩

theorem dhatu_stemLast : root.stemLast.hasTag .dhatu = true := by
  rcases root.stem_cases with ⟨-, -, hlast⟩ | ⟨-, -, hlast⟩
  · rw [hlast]
    decide
  · rw [hlast, root.hasTag_entered rfl]
    rfl

theorem first_stem : ∃ more, root.stemInit ++ [root.stemLast] = root.entered :: more := by
  rcases root.stem_cases with ⟨-, hinit, hlast⟩ | ⟨-, hinit, hlast⟩
  · exact ⟨[ricTerm], by rw [hinit, hlast]; rfl⟩
  · exact ⟨[], by rw [hinit, hlast]; rfl⟩

end Root

namespace Derivation

variable {d : Derivation} {root : Root}

-- The roots of the akusmiya sub-list settle the endings at once.
def taggedAkusmiya (root : Root) (d : Derivation) : Derivation :=
  if root.antargana == some .akusmiya then d.addTag (.pada .atmanepada) else d

theorem rest_taggedAkusmiya (root : Root) (d : Derivation) :
    (d.taggedAkusmiya root).rest = d.rest.taggedAkusmiya root := by
  unfold taggedAkusmiya
  split <;> rfl

theorem markAkusmiya_shows (root : Root) (d : Derivation) :
    (d.markAkusmiya root).terms = d.terms ∧
      (d.markAkusmiya root).rest = d.rest.taggedAkusmiya root := by
  unfold markAkusmiya taggedAkusmiya
  split
  · exact ⟨terms_record _ _, rest_record _ _⟩
  · exact ⟨rfl, rfl⟩

theorem enterRoot_shows (root : Root) (hd : d.terms = []) :
    (d.enterRoot root).Ends
      (fun e => e.terms = [root.entered] ∧ e.rest = (d.taggedAkusmiya root).rest)
      fun _ => True := by
  have henter : d.enterRoot root = ((d.pushRoot root).dropMarkers (d.terms.length : Int)).map
      fun e => ((e.replaceInitial d.terms.length).nasalizeRoot d.terms.length).markAkusmiya root :=
    rfl
  have hpush : ((d.push (.ofRoot root.upadesha root.gana root.number)).record "start").terms =
      [] ++ .ofRoot root.upadesha root.gana root.number :: [] := by
    rw [terms_record, push, hd]
  have hrow : (d.pushRoot root).terms =
      [] ++ (Term.ofRoot root.upadesha root.gana root.number).addTag .dhatu :: [] := by
    rw [pushRoot, hd]
    exact (actsAt_alter "1.3.1" 0 (·.addTag .dhatu) _).terms_of_cut hpush rfl
  have hrest : (d.pushRoot root).rest = d.rest := by simp [pushRoot]
  have hterm := term_of_cut hrow
  rw [henter, hd]
  refine (dropMarkers_ends hterm rfl).map _ fun e he => ?_
  have hacts := (he.trans (actsAt_replaceInitial 0 e)).trans (actsAt_nasalizeRoot 0 _)
  obtain ⟨hterms, hmarked⟩ := markAkusmiya_shows root
    ((e.replaceInitial ((0 : Nat) : Int)).nasalizeRoot ((0 : Nat) : Int))
  refine ⟨hterms.trans (hacts.terms_of_cut hrow rfl), hmarked.trans ?_⟩
  rw [hacts.rest, hrest, rest_taggedAkusmiya]

theorem addRic_shows (hd : d.terms = [root.entered]) :
    d.addRic.Ends (fun e => e.terms = root.stemInit ++ [root.stemLast] ∧ e.rest = d.rest)
      fun _ => True := by
  have hdhatu : root.entered.hasTag .dhatu = true := by rw [root.hasTag_entered rfl]; rfl
  have hcut : d.terms = [] ++ root.entered :: [] := hd
  have hlast : d.lastTagged? .dhatu = some 0 := lastTagged?_of_cut hcut hdhatu (by simp)
  have hgana : d.has 0 (·.gana == some 10) = (root.gana == 10) := by
    rw [show (0 : Int) = (([] : List Term).length : Int) from rfl, has_of_cut hcut,
      root.gana_entered]
    rfl
  unfold addRic
  rw [hlast]
  dsimp only
  rcases root.stem_cases with ⟨hten, hinit, hstem⟩ | ⟨hten, hinit, hstem⟩
  · rw [hinit, hstem, show d.has ((0 : Nat) : Int) (·.gana == some 10) = true by
      exact hgana.trans (by simp [hten]), if_pos rfl]
    have hend : d.terms = [root.entered] ++ [] := hd
    refine (insertTerm_ends hend
      (t := (Term.ofUpadesha "Ric".toList).addTags [.pratyaya]) (u := "Ric".toList) rfl _).map _
      fun e he => ?_
    have hacts := actsAt_alter "3.1.32" 1 (·.addTag .dhatu) e
    exact ⟨hacts.terms_of_cut he.1 rfl, hacts.rest.trans he.2⟩
  · rw [hinit, hstem, show d.has ((0 : Nat) : Int) (·.gana == some 10) = false by
      exact hgana.trans (by simp [hten])]
    exact ⟨hd, rfl⟩

theorem addLakara_shows {lakara : Lakara} (hlakara : lakara ≠ .ashirlin)
    (hd : d.terms = root.stemInit ++ [root.stemLast]) :
    (d.addLakara lakara).Ends
      (fun e => e.terms = root.stemInit ++ [root.stemLast, lakaraTerm lakara] ∧ e.rest = d.rest)
      fun _ => True := by
  have hlast := lastTagged?_of_cut hd root.dhatu_stemLast (by simp)
  unfold addLakara
  rw [hlast]
  dsimp only
  rw [if_neg hlakara]
  have hcut : d.terms = (root.stemInit ++ [root.stemLast]) ++ [] := by rw [hd, List.append_nil]
  have hends := insertTerm_ends hcut (t := (Term.ofUpadesha lakara.upadesha).addTags [.pratyaya])
    (u := lakara.upadesha) rfl lakara.rule
  rw [show (root.stemInit ++ [root.stemLast]).length = root.stemInit.length + 1 by simp] at hends
  refine hends.imp (fun e he => ⟨he.1.trans ?_, he.2⟩) fun _ h => h
  rw [List.append_assoc]
  rfl

end Derivation

-- Either the set of endings is settled, or an optional rule is asked for the atmanepada.
inductive PadaChoice
  | settled (pada : Pada)
  | optional (rule : Rule)

namespace PadaChoice

-- What comes of it, and what the ledger tells of it.
def resolve (choices : Choices) : PadaChoice → Pada × List Decision
  | settled pada => (pada, [])
  | optional rule =>
    if choices.permits rule then (.atmanepada, [⟨rule, .accepted⟩])
    else (.parasmaipada, [⟨rule, .declined⟩])

end PadaChoice

-- 1.3.12 to 1.3.78
def Root.padaChoice (root : Root) (prayoga : Prayoga) : PadaChoice :=
  if root.antargana == some .akusmiya || prayoga != .kartari then .settled .atmanepada
  else if root.entered.hasTagIn [.anudattet, .it .N] then .settled .atmanepada
  else if root.entered.hasTagIn [.svaritet, .it .Y] then .optional "1.3.72"
  else if root.stemLast.isTaught "Ric".toList then .optional "1.3.74"
  else .settled .parasmaipada

namespace Derivation

variable {d : Derivation} {root : Root} {before : List Term} {t : Term}

-- The set of endings is settled, with these decisions.
def settle (result : Pada × List Decision) (d : Derivation) : Derivation :=
  { d.addTag (.pada result.1) with ledger := d.ledger ++ result.2 }

theorem rest_settle (result : Pada × List Decision) (d : Derivation) :
    (d.settle result).rest = d.rest.settle result := rfl

theorem hasTag_settle (result : Pada × List Decision) (d : Derivation) (x : Tag) :
    (d.settle result).hasTag x = (x == .pada result.1 || d.hasTag x) :=
  Tag.contains_insert x _ d.tags

-- `e` is `d` with the set of endings settled, which the last term of the row bears as a tag.
structure Settles (before : List Term) (t : Term) (result : Pada × List Decision)
    (d e : Derivation) : Prop where
  terms : e.terms = before ++ [t.addTag (.pada result.1)]
  rest : e.rest = (d.settle result).rest

theorem Settles.record {result : Pada × List Decision} {e : Derivation}
    (h : Settles before t result d e) (rule : Rule) : Settles before t result d (e.record rule) :=
  ⟨(terms_record rule e).trans h.terms, (rest_record rule e).trans h.rest⟩

theorem settles_markPada (pada : Pada) (hd : d.terms = before ++ [t])
    (ht : t.hasTag .pratyaya = true) : Settles before t (pada, []) d (d.markPada pada) := by
  have hlast : (d.addTag (.pada pada)).lastTagged? .pratyaya = some before.length :=
    lastTagged?_of_cut (d := d.addTag (.pada pada)) hd ht (by simp)
  unfold markPada
  dsimp only
  rw [hlast]
  refine ⟨terms_update_of_cut (d := d.addTag (.pada pada)) hd rfl _, (rest_update _ _ _).trans ?_⟩
  simp [settle, addTag, Derivation.rest]

theorem settles_optionalPada (rule : Rule) (hd : d.terms = before ++ [t])
    (ht : t.hasTag .pratyaya = true) :
    Settles before t ((PadaChoice.optional rule).resolve d.choices) d (d.optionalPada rule) := by
  unfold optionalPada
  rcases optionally_cases rule (·.markPada .atmanepada) d with
    ⟨hpermits, heq⟩ | ⟨hpermits, heq⟩
  · have hmark := (settles_markPada (d := d.accept rule) .atmanepada hd ht).record rule
    rw [heq, show (PadaChoice.optional rule).resolve d.choices =
      (.atmanepada, [⟨rule, .accepted⟩]) from if_pos hpermits]
    refine ⟨hmark.terms, hmark.rest.trans ?_⟩
    simp [settle, addTag, Derivation.rest, accept]
  · have hmark := (settles_markPada (d := d.decline rule) .parasmaipada hd ht).record "1.3.78"
    rw [heq, show (PadaChoice.optional rule).resolve d.choices =
      (.parasmaipada, [⟨rule, .declined⟩]) from if_neg (by simp [hpermits])]
    refine ⟨hmark.terms, hmark.rest.trans ?_⟩
    simp [settle, addTag, Derivation.rest, decline]

theorem settles_choosePada (prayoga : Prayoga)
    (hd : d.terms = (root.stemInit ++ [root.stemLast]) ++ [t]) (ht : t.hasTag .pratyaya = true)
    (hroot : t.hasTag .dhatu = false)
    (hatmane : d.hasTag (.pada .atmanepada) = (root.antargana == some .akusmiya))
    (hprayoga : d.hasTagIn [.prayoga .karmani, .prayoga .bhave] = (prayoga != .kartari)) :
    Settles (root.stemInit ++ [root.stemLast]) t ((root.padaChoice prayoga).resolve d.choices) d
      d.choosePada := by
  have hfirst : d.firstTagged? .dhatu = some 0 ∧ ∀ f, d.has ((0 : Nat) : Int) f = f root.entered := by
    obtain ⟨more, hmore⟩ := root.first_stem
    have hcut : d.terms = [] ++ root.entered :: (more ++ [t]) := by rw [hd, hmore]; rfl
    exact ⟨firstTagged?_of_cut hcut (by rw [root.hasTag_entered rfl]; rfl) (by simp),
      has_of_cut hcut⟩
  have hcut : d.terms = root.stemInit ++ root.stemLast :: [t] := by rw [hd]; simp
  have hlast : d.lastTagged? .dhatu = some root.stemInit.length :=
    lastTagged?_of_cut hcut root.dhatu_stemLast (by simpa using hroot)
  have hmark (pada : Pada) := settles_markPada pada hd ht
  unfold choosePada Root.padaChoice
  rw [hfirst.1, hlast]
  dsimp only
  rw [hatmane, hprayoga, hfirst.2, hfirst.2, has_of_cut hcut]
  by_cases hakusmiya : (root.antargana == some .akusmiya) = true
  · rw [if_pos hakusmiya, if_pos (by rw [hakusmiya]; rfl)]
    exact hmark .atmanepada
  · rw [if_neg hakusmiya]
    by_cases hpassive : (prayoga != .kartari) = true
    · rw [if_pos hpassive, if_pos (by rw [hpassive, Bool.or_true])]
      exact (hmark .atmanepada).record _
    · rw [if_neg hpassive, if_neg (by simp [hakusmiya, hpassive])]
      split
      · exact (hmark .atmanepada).record _
      · split
        · exact settles_optionalPada "1.3.72" hd ht
        · split
          · exact settles_optionalPada "1.3.74" hd ht
          · exact (hmark .parasmaipada).record _

end Derivation

-- The ending of a person and number as it is taught.
def endingTaught : Pada → Purusha → Vacana → Text
  | .atmanepada => atmanepadaEnding
  | .parasmaipada => parasmaipadaEnding

namespace Term

-- 3.4.78
def giveEnding (pada : Pada) (purusha : Purusha) (vacana : Vacana) (t : Term) : Term :=
  ((t.addTags [.vibhakti, .tin, .purusha purusha, .vacana vacana]).substituted
    (endingTaught pada purusha vacana)).removeTag (.it .N)

-- The atmanepada ending of a lakara with the marker w.
def fitAtmane (lakara : Lakara) (t : Term) : Term :=
  if t.hasTag (.pada .atmanepada) && lakara.isWit then t.fitWit else t

-- The ending of an imperative, before it takes the endings of lan.
def fitImperative (t : Term) : Term := (t.fitAtmane .lot).fitImperativeFinal

def fitEnding (lakara : Lakara) (t : Term) : Term :=
  if lakara = .lit then t.fitPerfect
  else if lakara = .lot then
    if t.fitImperative.hasTag (.purusha .uttama) then
      (t.fitImperative.addTag (.it .p)).fitNit true
    else t.fitImperative.fitNit true
  else if lakara.isNit then (t.fitAtmane lakara).fitNit false
  else t.fitAtmane lakara

-- 3.4.92
def augments (lakara : Lakara) (t : Term) : List Term :=
  if lakara = .lot ∧ t.fitImperative.hasTag (.purusha .uttama) = true then
    [(Term.ofAgama "Aw".toList).stripped "Aw".toList]
  else []

-- What Am and kf put between a root and its ending in the perfect.
def auxiliaries (root : Term) : List Term :=
  match root.amRule? with
  | none => []
  | some _ => [(Term.ofUpadesha "Am".toList).addTag .pratyaya, auxiliaryRoot]

-- The suffix of the stem before an ending, of a lakara other than lit.
def stemSuffix? (passive : Bool) (gana : Option Int) (ending : Term) : Option Text :=
  if ending.hasLakshana "lf~w".toList then some "sya".toList
  else if !ending.hasTag .sarvadhatuka then none
  else if passive then some "yak".toList
  else (gana.bind classSuffix?).map (·.2)

end Term

namespace Derivation

variable {d : Derivation} {before : List Term} {last t : Term}

theorem giveEnding_shows {pada : Pada} (purusha : Purusha) (vacana : Vacana)
    (hd : d.terms = before ++ [t]) (ht : t.hasTag .pratyaya = true)
    (hpada : d.hasTag (.pada .atmanepada) = (pada == .atmanepada)) :
    (d.giveEnding purusha vacana).Ends
      (fun e => e.terms = before ++ [t.giveEnding pada purusha vacana] ∧ e.rest = d.rest)
      fun _ => True := by
  have hlast : d.lastTagged? .pratyaya = some before.length :=
    lastTagged?_of_cut hd ht (by simp)
  have htaught : (if d.hasTag (.pada .atmanepada) then atmanepadaEnding purusha vacana
      else parasmaipadaEnding purusha vacana) = endingTaught pada purusha vacana := by
    rw [hpada]
    cases pada <;> rfl
  unfold giveEnding
  rw [hlast]
  dsimp only
  rw [htaught]
  have htags := actsAt_update before.length
    (·.addTags [.vibhakti, .tin, .purusha purusha, .vacana vacana]) d
  refine (substitute_ends "3.4.78" before.length _ _).map _ fun e he => ?_
  have hacts := (htags.trans he).trans (actsAt_update before.length (·.removeTag (.it .N)) e)
  exact ⟨hacts.terms_of_cut hd rfl, hacts.rest⟩

theorem fitImperative_shows (hd : d.terms = before ++ [t]) :
    (d.fitImperative before.length).Ends
      (fun e => e.terms = before ++
          (if t.fitImperativeFinal.hasTag (.purusha .uttama) then
            [(Term.ofAgama "Aw".toList).stripped "Aw".toList,
              (t.fitImperativeFinal.addTag (.it .p)).fitNit true]
          else [t.fitImperativeFinal.fitNit true]) ∧ e.rest = d.rest) fun _ => True := by
  have hfinal := actsAt_fitImperativeFinal before.length d
  have hrow := hfinal.terms_of_cut hd rfl
  unfold fitImperative
  dsimp only
  rw [has_of_cut hrow]
  split
  · have hp := actsAt_update before.length (·.addTag (.it .p)) (d.fitImperativeFinal before.length)
    have hrow' := hp.terms_of_cut hrow rfl
    refine (insertTerm_ends hrow' (t := Term.ofAgama "Aw".toList) rfl "3.4.92").map _ fun e he => ?_
    have hnit := actsAt_fitNit (before.length + 1) true e
    have hcut : e.terms = (before ++ [(Term.ofAgama "Aw".toList).stripped "Aw".toList]) ++
        [t.fitImperativeFinal.addTag (.it .p)] := by
      rw [he.1]
      simp
    refine ⟨(hnit.terms_of_cut hcut (by simp)).trans (by simp), ?_⟩
    rw [hnit.rest, he.2, hp.rest, hfinal.rest]
  · have hacts := hfinal.trans (actsAt_fitNit before.length true _)
    exact ⟨hacts.terms_of_cut hd rfl, hacts.rest⟩

theorem fitEnding_shows (lakara : Lakara) (hd : d.terms = before ++ [t])
    (ht : t.hasTag .tin = true) :
    (d.fitEnding lakara).Ends
      (fun e => e.terms = before ++ (t.augments lakara ++ [t.fitEnding lakara]) ∧
        e.rest = d.rest) fun _ => True := by
  have hlast : d.lastTagged? .tin = some before.length := lastTagged?_of_cut hd ht (by simp)
  unfold fitEnding
  rw [hlast]
  dsimp only
  by_cases hlit : lakara = .lit
  · subst hlit
    refine (fitPerfect_ends before.length d).imp (fun e he => ⟨?_, he.rest⟩) fun _ h => h
    exact he.terms_of_cut hd rfl
  · rw [if_neg hlit]
    have hfitted : (if (d.has before.length fun t => t.hasTag (.pada .atmanepada)) && lakara.isWit
        then d.fitWit before.length else .done d).Ends
          (ActsAt before.length (Term.fitAtmane lakara) d) fun _ => True := by
      have hterm := term_of_cut hd
      rw [has_of_cut hd]
      split
      · rename_i hyes
        refine (fitWit_ends _ d).imp (fun e he => he.at hterm ?_) fun _ h => h
        rw [Term.fitAtmane, if_pos hyes]
      · rename_i hno
        refine (actsAt_id _ d).at hterm ?_
        rw [Term.fitAtmane, if_neg hno]
        rfl
    by_cases hlot : lakara = .lot
    · subst hlot
      refine hfitted.andThen _ fun e he => ?_
      refine (fitImperative_shows (he.terms_of_cut hd rfl)).imp (fun f hf => ?_) fun _ h => h
      refine ⟨hf.1.trans ?_, hf.2.trans he.rest⟩
      rw [Term.augments, Term.fitEnding, Term.fitImperative, if_neg hlit, if_pos rfl]
      split <;> simp_all
    · have haugments : t.augments lakara = [] := if_neg fun h => hlot h.1
      rw [if_neg hlot, haugments, List.nil_append, Term.fitEnding, if_neg hlit, if_neg hlot]
      split
      · refine hfitted.map _ fun e he => ?_
        have hacts := he.trans (actsAt_fitNit before.length false e)
        exact ⟨hacts.terms_of_cut hd rfl, hacts.rest⟩
      · exact hfitted.imp (fun e he => ⟨he.terms_of_cut hd rfl, he.rest⟩) fun _ h => h

theorem addAuxiliary_shows (hd : d.terms = before ++ [last, t]) (hlast : last.hasTag .dhatu = true)
    (ht : t.hasTag .dhatu = false) :
    (d.addAuxiliary (before.length + 1)).terms = before ++ (last :: last.auxiliaries ++ [t]) ∧
      (d.addAuxiliary (before.length + 1)).rest = d.rest := by
  have hroot : d.lastTagged? .dhatu = some before.length :=
    lastTagged?_of_cut hd hlast (by simpa using ht)
  unfold addAuxiliary
  rw [hroot]
  dsimp only
  rw [term_of_cut hd, Option.bind_some, Term.auxiliaries]
  rcases last.amRule? with _ | rule
  · exact ⟨hd, rfl⟩
  · dsimp only
    have hcut : d.terms = (before ++ [last]) ++ [t] := by rw [hd]; simp
    have ham := terms_insertTerm_of_cut hcut ((Term.ofUpadesha "Am".toList).addTag .pratyaya)
    rw [show (before ++ [last]).length = before.length + 1 by simp] at ham
    have hcut' : ((d.insertTerm (before.length + 1)
        ((Term.ofUpadesha "Am".toList).addTag .pratyaya)).record rule).terms =
          (before ++ [last, (Term.ofUpadesha "Am".toList).addTag .pratyaya]) ++ [t] := by
      rw [terms_record, ham]
      simp
    have hkf := terms_insertTerm_of_cut hcut' auxiliaryRoot
    rw [show (before ++ [last, (Term.ofUpadesha "Am".toList).addTag .pratyaya]).length =
      before.length + 1 + 1 by simp] at hkf
    refine ⟨(terms_record _ _).trans (hkf.trans (by simp)), ?_⟩
    rw [rest_record, rest_insertTerm, rest_record, rest_insertTerm]

theorem addStemSuffix_shows (rule : Rule) (u : Text) (hd : d.terms = before ++ [last, t])
    (hlast : last.hasTag .dhatu = true) (ht : t.hasTag .dhatu = false) :
    (d.addStemSuffix rule u).Ends
      (fun e => e.terms = before ++ [last, suffixTerm u [.pratyaya, .vikarana], t] ∧
        e.rest = d.rest) fun _ => True := by
  have hroot : d.lastTagged? .dhatu = some before.length :=
    lastTagged?_of_cut hd hlast (by simpa using ht)
  have hcut : d.terms = (before ++ [last]) ++ [t] := by rw [hd]; simp
  have hends := insertTerm_ends hcut (t := (Term.ofUpadesha u).addTags [.pratyaya, .vikarana])
    (u := u) rfl rule
  rw [show (before ++ [last]).length = before.length + 1 by simp] at hends
  unfold addStemSuffix
  rw [hroot]
  exact hends.imp (fun e he => ⟨he.1.trans (by simp [suffixTerm]), he.2⟩) fun _ h => h

-- The row with the suffix of the stem, or with the auxiliary of the perfect.
theorem addVikarana_shows {first : Term} {more : List Term} (hd : d.terms = before ++ [last, t])
    (hfirst : before ++ [last] = first :: more) (hroot : first.hasTag .dhatu = true)
    (hlast : last.hasTag .dhatu = true) (ht : t.hasTag .tin = true)
    (hending : t.hasTag .dhatu = false) :
    d.addVikarana.Ends
      (fun e => e.terms = before ++ (last ::
          (if t.hasLakshana "li~w".toList then last.auxiliaries
          else ((t.stemSuffix? (d.hasTagIn [.prayoga .karmani, .prayoga .bhave])
            first.gana).map (suffixTerm · [.pratyaya, .vikarana])).toList) ++ [t]) ∧
        e.rest = d.rest) fun _ => True := by
  have hcut : d.terms = (before ++ [last]) ++ [t] := by rw [hd]; simp
  have htin : d.lastTagged? .tin = some (before.length + 1) := by
    have := lastTagged?_of_cut hcut ht (by simp)
    simpa using this
  have hhas (f : Term → Bool) : d.has ((before.length + 1 : Nat) : Int) f = f t := by
    have := has_of_cut hcut f
    simpa using this
  have hgana : d.firstRootGana? = first.gana := by
    have hrow : d.terms = [] ++ first :: (more ++ [t]) := by rw [hcut, hfirst]; rfl
    have hat : d.terms[0]? = some first := term_of_cut hrow
    rw [firstRootGana?, firstTagged?_of_cut hrow hroot (by simp)]
    simp [hat]
  unfold addVikarana
  rw [htin]
  dsimp only
  rw [hhas, hhas, hhas, hgana]
  split
  · obtain ⟨hterms, hrest⟩ := addAuxiliary_shows hd hlast hending
    exact ⟨hterms, hrest⟩
  · rw [Term.stemSuffix?]
    split
    · exact addStemSuffix_shows _ _ hd hlast hending
    · split
      · exact ⟨hd, rfl⟩
      · split
        · exact addStemSuffix_shows _ _ hd hlast hending
        · rcases first.gana.bind classSuffix? with _ | ⟨rule, u⟩
          · exact ⟨hd, rfl⟩
          · exact addStemSuffix_shows rule u hd hlast hending

end Derivation

namespace Term

-- A suffix keeps its class.
theorem classify_classify (t : Term) : t.classify.classify = t.classify := by
  have hkeep {t : Term} (h : t.hasTagIn [.sarvadhatuka, .ardhadhatuka] = true) : t.classify = t := by
    rw [classify, if_pos (by rw [h, Bool.or_true])]
  have hsarva := hkeep (t := t.addTag .sarvadhatuka) (by simp [hasTagIn, hasTag_addTag_self])
  have hardha := hkeep (t := t.addTag .ardhadhatuka) (by simp [hasTagIn, hasTag_addTag_self])
  unfold classify
  split
  · rfl
  · split
    · exact hardha
    · split
      · exact hsarva
      · exact hardha

end Term

namespace Root

variable (root : Root)

theorem classify_entered : root.entered.classify = root.entered := by
  rw [Term.classify, root.hasTag_entered rfl]
  rfl

theorem classify_stemInit : root.stemInit.map Term.classify = root.stemInit := by
  rcases root.stem_cases with ⟨-, hinit, -⟩ | ⟨-, hinit, -⟩
  · rw [hinit, List.map_singleton, classify_entered]
  · rw [hinit, List.map_nil]

-- The stem begins with the root and ends with a root.
theorem classified_stem :
    (∃ more, root.stemInit ++ [root.stemLast.classify] = root.entered :: more) ∧
      root.stemLast.classify.hasTag .dhatu = true := by
  rcases root.stem_cases with ⟨-, hinit, hlast⟩ | ⟨-, hinit, hlast⟩
  · rw [hinit, hlast]
    exact ⟨⟨[ricTerm.classify], rfl⟩, by decide⟩
  · rw [hinit, hlast, classify_entered]
    exact ⟨⟨[], rfl⟩, by rw [root.hasTag_entered rfl]; rfl⟩

end Root

-- The ending of a form before it is fitted to the lakara.
def givenEnding (lakara : Lakara) (pada : Pada) (purusha : Purusha) (vacana : Vacana) : Term :=
  (((lakaraTerm lakara).addTag (.pada pada)).giveEnding pada purusha vacana).classify

-- The ending of a form.
def endingOf (lakara : Lakara) (pada : Pada) (purusha : Purusha) (vacana : Vacana) : Term :=
  if lakara = .lit then ((givenEnding lakara pada purusha vacana).fitEnding .lit).classify
  else (givenEnding lakara pada purusha vacana).fitEnding lakara

-- The suffix of the stem.
def stemSuffix? (form : VerbForm) (gana : Int) (pada : Pada) : Option Term :=
  if form.lakara = .lit then none
  else ((givenEnding form.lakara pada form.purusha form.vacana).stemSuffix?
    (form.prayoga != .kartari) (some gana)).map fun u =>
      (suffixTerm u [.pratyaya, .vikarana]).classify

-- What follows the last root.
def suffixesOf (form : VerbForm) (gana : Int) (pada : Pada) : List Term :=
  (stemSuffix? form gana pada).toList ++
    (givenEnding form.lakara pada form.purusha form.vacana).augments form.lakara ++
    [endingOf form.lakara pada form.purusha form.vacana]

-- The stem, in the perfect with the auxiliary root.
def Root.front (root : Root) (lakara : Lakara) : List Term :=
  root.stemInit ++ root.stemLast.classify ::
    if lakara = .lit then root.stemLast.classify.auxiliaries.map Term.classify else []

-- The row of a verb form with its suffixes.
def suffixedRow (root : Root) (form : VerbForm) (pada : Pada) : List Term :=
  root.front form.lakara ++ suffixesOf form root.gana pada

-- The endings are few, and what holds of each of them holds of all.
theorem forall_endings {P : Lakara → Pada → Purusha → Vacana → Prop}
    (h : ∀ lakara ∈ supportedLakaras, ∀ pada ∈ [Pada.parasmaipada, .atmanepada],
      ∀ purusha ∈ Purusha.all, ∀ vacana ∈ Vacana.all, P lakara pada purusha vacana)
    {lakara : Lakara} (hlakara : lakara ∈ supportedLakaras) (pada : Pada) (purusha : Purusha)
    (vacana : Vacana) : P lakara pada purusha vacana :=
  h lakara hlakara pada (by cases pada <;> decide) purusha (by cases purusha <;> decide) vacana
    (by cases vacana <;> decide)

-- The lakaras of the past, whose forms take an augment.
def pastLakaras : List Text := ["la~N".toList, "lu~N".toList, "lf~N".toList]

-- What the rules ask of an ending. It is known by the lakara that it stands for.
structure IsGiven (lakara : Lakara) (t : Term) : Prop where
  tin : t.hasTag .tin = true
  dhatu : t.hasTag .dhatu = false
  perfect : t.hasLakshana "li~w".toList = (lakara == .lit)
  past : t.hasLakshanaIn pastLakaras = (lakara == .lan)

instance (lakara : Lakara) (t : Term) : Decidable (IsGiven lakara t) :=
  decidable_of_iff (t.hasTag .tin = true ∧ t.hasTag .dhatu = false ∧
      t.hasLakshana "li~w".toList = (lakara == .lit) ∧
      t.hasLakshanaIn pastLakaras = (lakara == .lan))
    ⟨fun h => ⟨h.1, h.2.1, h.2.2.1, h.2.2.2⟩, fun h => ⟨h.tin, h.dhatu, h.perfect, h.past⟩⟩

theorem IsGiven.of_kind {lakara : Lakara} {t t' : Term} (h : IsGiven lakara t)
    (hkind : t'.kind = t.kind) : IsGiven lakara t' where
  tin := (Term.hasTag_eq_of_kind hkind rfl).trans h.tin
  dhatu := (Term.hasTag_eq_of_kind hkind rfl).trans h.dhatu
  perfect := by rw [Term.hasLakshana, Term.lakshanas_eq_of_kind hkind, ← h.perfect]; rfl
  past := by rw [Term.hasLakshanaIn, Term.lakshanas_eq_of_kind hkind, ← h.past]; rfl

theorem isGiven_givenEnding {lakara : Lakara} (hlakara : lakara ∈ supportedLakaras) (pada : Pada)
    (purusha : Purusha) (vacana : Vacana) :
    IsGiven lakara (givenEnding lakara pada purusha vacana) ∧
      IsGiven lakara ((givenEnding lakara pada purusha vacana).fitEnding lakara) :=
  forall_endings (P := fun lakara pada purusha vacana =>
    IsGiven lakara (givenEnding lakara pada purusha vacana) ∧
      IsGiven lakara ((givenEnding lakara pada purusha vacana).fitEnding lakara))
    (by decide +kernel) hlakara pada purusha vacana

namespace Derivation

variable {d : Derivation} {root : Root}

theorem classifySuffixes_shows {after : List Term} {last : Term}
    (hd : d.terms = root.stemInit ++ last :: after) :
    d.classifySuffixes.terms = root.stemInit ++ last.classify :: after.map Term.classify ∧
      d.classifySuffixes.rest = d.rest := by
  obtain ⟨hterms, hrest⟩ := d.classifySuffixes_eq
  refine ⟨hterms.trans ?_, hrest⟩
  rw [hd, List.map_append, List.map_cons, root.classify_stemInit]

-- The perfect takes its own ending at once, and Am and kf before it.
theorem perfect_shows {o : Outcome} {given : Term} {rest : Derivation}
    (ho : o.Ends (fun e => e.terms = root.stemInit ++ [root.stemLast.classify, given] ∧
      e.rest = rest) fun _ => True)
    (hgiven : IsGiven .lit given) (hfitted : IsGiven .lit (given.fitEnding .lit)) :
    (((o.andThen (fitEnding .lit)).andThen addVikarana).map classifySuffixes).Ends
      (fun e => e.terms = root.front .lit ++ [(given.fitEnding .lit).classify] ∧ e.rest = rest)
      fun _ => True := by
  obtain ⟨⟨more, hmore⟩, hroot⟩ := root.classified_stem
  have hentered : root.entered.hasTag .dhatu = true := by rw [root.hasTag_entered rfl]; rfl
  have hfit : (o.andThen (fitEnding .lit)).Ends
      (fun e => e.terms = root.stemInit ++ [root.stemLast.classify, given.fitEnding .lit] ∧
        e.rest = rest) fun _ => True := by
    refine ho.andThen _ fun e he => ?_
    have hcut : e.terms = (root.stemInit ++ [root.stemLast.classify]) ++ [given] := by
      rw [he.1, List.append_assoc]
      rfl
    refine (fitEnding_shows .lit hcut hgiven.tin).imp (fun f hf => ?_) fun _ h => h
    exact ⟨hf.1.trans (by simp [Term.augments]), hf.2.trans he.2⟩
  have hstem : ((o.andThen (fitEnding .lit)).andThen addVikarana).Ends
      (fun e => e.terms = root.stemInit ++ root.stemLast.classify ::
        (root.stemLast.classify.auxiliaries ++ [given.fitEnding .lit]) ∧ e.rest = rest)
      fun _ => True := by
    refine hfit.andThen _ fun e he => ?_
    refine (addVikarana_shows he.1 hmore hentered hroot hfitted.tin hfitted.dhatu).imp
      (fun f hf => ⟨hf.1.trans ?_, hf.2.trans he.2⟩) fun _ h => h
    have hyes : (given.fitEnding .lit).hasLakshana "li~w".toList = true := hfitted.perfect
    rw [if_pos hyes]
    rfl
  refine hstem.map _ fun e he => ?_
  obtain ⟨hterms, hrest⟩ := classifySuffixes_shows he.1
  refine ⟨hterms.trans ?_, hrest.trans he.2⟩
  rw [Term.classify_classify]
  simp [Root.front]

-- The other lakaras have a suffix of the stem, which the ending is fitted after.
theorem nonPerfect_shows {o : Outcome} {given : Term} {rest : Derivation} {lakara : Lakara}
    (hlit : lakara ≠ .lit)
    (ho : o.Ends (fun e => e.terms = root.stemInit ++ [root.stemLast.classify, given] ∧
      e.rest = rest) fun _ => True)
    (hgiven : IsGiven lakara given) (hclassed : given.classify = given) {passive : Bool}
    (hpassive : rest.hasTagIn [.prayoga .karmani, .prayoga .bhave] = passive) :
    (((o.andThen addVikarana).map classifySuffixes).andThen (fitEnding lakara)).Ends
      (fun e => e.terms = root.front lakara ++
          (((given.stemSuffix? passive (some root.gana)).map fun u =>
            (suffixTerm u [.pratyaya, .vikarana]).classify).toList ++ given.augments lakara ++
              [given.fitEnding lakara]) ∧ e.rest = rest) fun _ => True := by
  obtain ⟨⟨more, hmore⟩, hroot⟩ := root.classified_stem
  have hentered : root.entered.hasTag .dhatu = true := by rw [root.hasTag_entered rfl]; rfl
  have hstem : (o.andThen addVikarana).Ends
      (fun e => e.terms = root.stemInit ++ root.stemLast.classify ::
        (((given.stemSuffix? passive (some root.gana)).map
          (suffixTerm · [.pratyaya, .vikarana])).toList ++ [given]) ∧ e.rest = rest)
      fun _ => True := by
    refine ho.andThen _ fun e he => ?_
    refine (addVikarana_shows he.1 hmore hentered hroot hgiven.tin hgiven.dhatu).imp
      (fun f hf => ⟨hf.1.trans ?_, hf.2.trans he.2⟩) fun _ h => h
    have hno : ¬ given.hasLakshana "li~w".toList = true := by
      rw [hgiven.perfect]
      simpa using hlit
    have hasked : e.hasTagIn [.prayoga .karmani, .prayoga .bhave] = passive := by
      rw [← hpassive, ← he.2]
      rfl
    rw [if_neg hno, hasked, root.gana_entered]
    rfl
  have hclassified : ((o.andThen addVikarana).map classifySuffixes).Ends
      (fun e => e.terms = (root.front lakara ++
        ((given.stemSuffix? passive (some root.gana)).map fun u =>
          (suffixTerm u [.pratyaya, .vikarana]).classify).toList) ++ [given] ∧ e.rest = rest)
      fun _ => True := by
    refine hstem.map _ fun e he => ?_
    obtain ⟨hterms, hrest⟩ := classifySuffixes_shows he.1
    refine ⟨hterms.trans ?_, hrest.trans he.2⟩
    rw [Term.classify_classify, List.map_append, List.map_singleton, hclassed, Root.front,
      if_neg hlit]
    rcases given.stemSuffix? passive (some root.gana) with _ | u <;> simp
  refine hclassified.andThen _ fun e he => ?_
  refine (fitEnding_shows lakara he.1 hgiven.tin).imp (fun f hf => ?_) fun _ h => h
  exact ⟨hf.1.trans (by simp only [List.append_assoc]), hf.2.trans he.2⟩

theorem addSuffixes_shows {form : VerbForm} {pada : Pada} (hform : form.lakara ∈ supportedLakaras)
    (hd : d.terms =
      (root.stemInit ++ [root.stemLast]) ++ [(lakaraTerm form.lakara).addTag (.pada pada)])
    (hpada : d.hasTag (.pada .atmanepada) = (pada == .atmanepada))
    (hprayoga : d.hasTagIn [.prayoga .karmani, .prayoga .bhave] = (form.prayoga != .kartari)) :
    (d.addSuffixes form).Ends
      (fun e => e.terms = root.front form.lakara ++ suffixesOf form root.gana pada ∧
        e.rest = d.rest) fun _ => True := by
  have hsuffix : ∀ lakara ∈ supportedLakaras, ∀ pada ∈ [Pada.parasmaipada, .atmanepada],
      ((lakaraTerm lakara).addTag (.pada pada)).hasTag .pratyaya = true := by decide +kernel
  obtain ⟨hgiven, hfitted⟩ := isGiven_givenEnding hform pada form.purusha form.vacana
  have hclassified : (d.giveEnding form.purusha form.vacana).map classifySuffixes |>.Ends
      (fun e => e.terms = root.stemInit ++ [root.stemLast.classify,
        givenEnding form.lakara pada form.purusha form.vacana] ∧ e.rest = d.rest)
      fun _ => True := by
    refine (giveEnding_shows form.purusha form.vacana hd
      (hsuffix _ hform pada (by cases pada <;> decide)) hpada).map _ fun e he => ?_
    have hcut : e.terms = root.stemInit ++ root.stemLast ::
        [((lakaraTerm form.lakara).addTag (.pada pada)).giveEnding pada form.purusha
          form.vacana] := by
      rw [he.1, List.append_assoc]
      rfl
    obtain ⟨hterms, hrest⟩ := classifySuffixes_shows hcut
    exact ⟨hterms, hrest.trans he.2⟩
  unfold addSuffixes suffixesOf endingOf stemSuffix?
  dsimp only
  by_cases hlit : form.lakara = .lit
  · rw [hlit] at hclassified hgiven hfitted ⊢
    rw [if_pos rfl, if_pos rfl, if_pos rfl]
    exact perfect_shows hclassified hgiven hfitted
  · rw [if_neg hlit, if_neg hlit, if_neg hlit]
    exact nonPerfect_shows hlit hclassified hgiven (Term.classify_classify _) hprayoga

-- A verb form with its suffixes.
def suffixed (root : Root) (form : VerbForm) (d : Derivation) : Outcome :=
  (((((d.taggedFor form).enterRoot root).andThen addRic).andThen (addLakara form.lakara)).map
    choosePada).andThen (addSuffixes form)

theorem tags_taggedFor (form : VerbForm) (htags : d.tags = []) :
    (d.taggedFor form).tags = [.prayoga form.prayoga, .purusha form.purusha, .vacana form.vacana] := by
  simp [taggedFor, addTags, addTag, Tag.insert, htags]

-- What is known of the derivation before its set of endings is settled.
theorem taggedAkusmiya_taggedFor (root : Root) (form : VerbForm) (htags : d.tags = []) :
    ((d.taggedFor form).taggedAkusmiya root).choices = d.choices ∧
      ((d.taggedFor form).taggedAkusmiya root).hasTag (.pada .atmanepada) =
        (root.antargana == some .akusmiya) ∧
      ((d.taggedFor form).taggedAkusmiya root).hasTagIn [.prayoga .karmani, .prayoga .bhave] =
        (form.prayoga != .kartari) := by
  have hpassive : ∀ prayoga : Prayoga,
      (decide (.karmani = prayoga) || decide (.bhave = prayoga)) = (prayoga != .kartari) := by
    intro prayoga
    cases prayoga <;> rfl
  unfold taggedAkusmiya
  split
  · rename_i hyes
    refine ⟨rfl, ?_, ?_⟩
    · simp [hasTag, addTag, Tag.mem_insert, hyes]
    · simp [hasTagIn, hasTag, addTag, Tag.insert, tags_taggedFor form htags, hpassive]
  · rename_i hno
    refine ⟨rfl, ?_, ?_⟩
    · simp [hasTag, tags_taggedFor form htags, hno]
    · simp [hasTagIn, hasTag, tags_taggedFor form htags, hpassive]

theorem suffixed_shows {form : VerbForm} (hform : form.lakara ∈ supportedLakaras)
    (hterms : d.terms = []) (htags : d.tags = []) :
    (d.suffixed root form).Ends
      (fun e =>
        e.terms = suffixedRow root form ((root.padaChoice form.prayoga).resolve d.choices).1 ∧
        e.rest = (((d.taggedFor form).taggedAkusmiya root).settle
          ((root.padaChoice form.prayoga).resolve d.choices)).rest) fun _ => True := by
  have hknown := taggedAkusmiya_taggedFor (d := d) root form htags
  have hlakara : ∀ lakara ∈ supportedLakaras, (lakaraTerm lakara).hasTag .pratyaya = true ∧
      (lakaraTerm lakara).hasTag .dhatu = false := by decide +kernel
  have hashir : form.lakara ≠ .ashirlin := by
    intro h
    rw [h] at hform
    exact absurd hform (by decide)
  have hric : (((d.taggedFor form).enterRoot root).andThen addRic).Ends
      (fun e => e.terms = root.stemInit ++ [root.stemLast] ∧
        e.rest = ((d.taggedFor form).taggedAkusmiya root).rest) fun _ => True := by
    have hempty : (d.taggedFor form).terms = [] := hterms
    refine (enterRoot_shows root hempty).andThen _ fun e he => ?_
    exact (addRic_shows he.1).imp (fun f hf => ⟨hf.1, hf.2.trans he.2⟩) fun _ h => h
  have hadded : ((((d.taggedFor form).enterRoot root).andThen addRic).andThen
      (addLakara form.lakara)).Ends
        (fun e => e.terms = (root.stemInit ++ [root.stemLast]) ++ [lakaraTerm form.lakara] ∧
          e.rest = ((d.taggedFor form).taggedAkusmiya root).rest) fun _ => True := by
    refine hric.andThen _ fun e he => ?_
    refine (addLakara_shows hashir he.1).imp (fun f hf => ⟨hf.1.trans ?_, hf.2.trans he.2⟩)
      fun _ h => h
    rw [List.append_assoc]
    rfl
  have hpada : (((((d.taggedFor form).enterRoot root).andThen addRic).andThen
      (addLakara form.lakara)).map choosePada).Ends
        (fun e => e.terms = (root.stemInit ++ [root.stemLast]) ++
            [(lakaraTerm form.lakara).addTag
              (.pada ((root.padaChoice form.prayoga).resolve d.choices).1)] ∧
          e.rest = (((d.taggedFor form).taggedAkusmiya root).settle
            ((root.padaChoice form.prayoga).resolve d.choices)).rest) fun _ => True := by
    refine hadded.map _ fun e he => ?_
    have hchoices := (choices_eq_of_rest he.2).trans hknown.1
    have hsettles := settles_choosePada form.prayoga he.1 (hlakara _ hform).1
      (hlakara _ hform).2 ((hasTag_eq_of_rest he.2 _).trans hknown.2.1)
      ((hasTagIn_eq_of_rest he.2 _).trans hknown.2.2)
    rw [hchoices] at hsettles
    refine ⟨hsettles.terms, hsettles.rest.trans ?_⟩
    rw [rest_settle, he.2, ← rest_settle]
  refine hpada.andThen _ fun e he => ?_
  refine (addSuffixes_shows hform he.1 ?_ ?_).imp (fun f hf => ⟨hf.1, hf.2.trans he.2⟩) fun _ h => h
  · rw [hasTag_eq_of_rest he.2, hasTag_settle, hknown.2.1]
    by_cases hakusmiya : (root.antargana == some .akusmiya) = true
    · rw [Root.padaChoice, if_pos (by rw [hakusmiya, Bool.true_or])]
      rfl
    · rw [Bool.not_eq_true _ |>.mp hakusmiya, Bool.or_false]
      cases ((root.padaChoice form.prayoga).resolve d.choices).1 <;> rfl
  · rw [hasTagIn_eq_of_rest he.2, ← hknown.2.2]
    simp only [hasTagIn, List.any_cons, List.any_nil, hasTag_settle]
    rfl

end Derivation

end Vyakarana
