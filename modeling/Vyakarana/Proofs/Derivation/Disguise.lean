import Vyakarana.Derivation.PatternRule
import Vyakarana.Grammar.MarkerExtension
import Vyakarana.Grammar.StemSuffix
import Vyakarana.Proofs.Derivation.Retelling

/-!
The same derivation with other numbers and in another voice.

The number of a root is carried along and never looked at, and of the voice it is only asked whether
it is the active one. A disguise exchanges both, and whatever a retelling may exchange; the terms
and the tags of the derivation are otherwise as they were. What is done to a derivation can be done
to its disguise just as well.
-/

namespace Vyakarana

namespace Term

def renumber (f : Option Int → Option Int) (t : Term) : Term := { t with number := f t.number }

theorem map_renumber_id (ts : List Term) : ts.map (·.renumber id) = ts := List.map_id ts

variable (f : Option Int → Option Int) (t : Term)

theorem renumber_of_none (hf : f none = none) (ht : t.number = none) : t.renumber f = t := by
  rw [renumber, ht, hf, ← ht]

section Questions

@[simp] theorem text_renumber : (t.renumber f).text = t.text := (rfl)

@[simp] theorem upadesha_renumber : (t.renumber f).upadesha = t.upadesha := (rfl)

@[simp] theorem gana_renumber : (t.renumber f).gana = t.gana := (rfl)

@[simp] theorem adi?_renumber : (t.renumber f).adi? = t.adi? := (rfl)

@[simp] theorem antya?_renumber : (t.renumber f).antya? = t.antya? := (rfl)

@[simp] theorem upadha?_renumber : (t.renumber f).upadha? = t.upadha? := (rfl)

@[simp] theorem sound?_renumber (i : Int) : (t.renumber f).sound? i = t.sound? i := (rfl)

@[simp] theorem hasAdi_renumber (p : Pattern) : (t.renumber f).hasAdi p = t.hasAdi p := (rfl)

@[simp] theorem isTaught_renumber (u : Text) : (t.renumber f).isTaught u = t.isTaught u := (rfl)

@[simp] theorem hasLakshanaIn_renumber (us : List Text) :
    (t.renumber f).hasLakshanaIn us = t.hasLakshanaIn us := (rfl)

@[simp] theorem hasText_renumber (s : Text) : (t.renumber f).hasText s = t.hasText s := (rfl)

@[simp] theorem hasTextIn_renumber (ss : List Text) :
    (t.renumber f).hasTextIn ss = t.hasTextIn ss := (rfl)

@[simp] theorem startsWithAny_renumber (starts : List Text) :
    (t.renumber f).startsWithAny starts = t.startsWithAny starts := (rfl)

@[simp] theorem hasTag_renumber (tag : Tag) : (t.renumber f).hasTag tag = t.hasTag tag := (rfl)

@[simp] theorem hasTagIn_renumber (tags : List Tag) :
    (t.renumber f).hasTagIn tags = t.hasTagIn tags := (rfl)

@[simp] theorem isAnekaAc_renumber : (t.renumber f).isAnekaAc = t.isAnekaAc := (rfl)

@[simp] theorem isSamyoganta_renumber : (t.renumber f).isSamyoganta = t.isSamyoganta := (rfl)

@[simp] theorem isPerfectEnding_renumber :
    (t.renumber f).isPerfectEnding = t.isPerfectEnding := (rfl)

@[simp] theorem amRule?_renumber : (t.renumber f).amRule? = t.amRule? := (rfl)

end Questions

section Changes

@[simp] theorem setText_renumber (s : Text) :
    (t.renumber f).setText s = (t.setText s).renumber f := (rfl)

@[simp] theorem setAdi_renumber (s : Text) :
    (t.renumber f).setAdi s = (t.setAdi s).renumber f := (rfl)

@[simp] theorem setUpadesha_renumber (s : Text) :
    (t.renumber f).setUpadesha s = (t.setUpadesha s).renumber f := (rfl)

@[simp] theorem replaceText_renumber (needle sub : Text) :
    (t.renumber f).replaceText needle sub = (t.replaceText needle sub).renumber f := (rfl)

@[simp] theorem elide_renumber : (t.renumber f).elide = t.elide.renumber f := (rfl)

@[simp] theorem addTag_renumber (tag : Tag) :
    (t.renumber f).addTag tag = (t.addTag tag).renumber f := (rfl)

@[simp] theorem removeTag_renumber (tag : Tag) :
    (t.renumber f).removeTag tag = (t.removeTag tag).renumber f := (rfl)

@[simp] theorem addTags_renumber (tags : List Tag) :
    (t.renumber f).addTags tags = (t.addTags tags).renumber f := by
  induction tags generalizing t with
  | nil => rfl
  | cons tag rest ih => exact ih (t.addTag tag)

@[simp] theorem setAntya_renumber (s : Text) :
    (t.renumber f).setAntya s = (t.setAntya s).renumber f := by
  unfold setAntya
  rw [text_renumber]
  split <;> rfl

@[simp] theorem setUpadha_renumber (s : Text) :
    (t.renumber f).setUpadha s = (t.setUpadha s).renumber f := by
  unfold setUpadha
  rw [upadha?_renumber, antya?_renumber]
  split <;> rfl

@[simp] theorem substituteAdi_renumber (s : Text) :
    (t.renumber f).substituteAdi s = (t.substituteAdi s).renumber f := by
  unfold substituteAdi
  rw [text_renumber]
  split <;> rfl

@[simp] theorem insertAfterVowel_renumber (s : Text) :
    (t.renumber f).insertAfterVowel s = (t.insertAfterVowel s).renumber f := by
  unfold insertAfterVowel
  rw [text_renumber]
  split <;> rfl

@[simp] theorem substituteTi_renumber (s : Text) :
    (t.renumber f).substituteTi s = (t.substituteTi s).renumber f := by
  unfold substituteTi
  rw [text_renumber]
  split <;> rfl

end Changes

end Term

namespace View

variable (f : Option Int → Option Int)

def renumber (v : View) : View :=
  ⟨v.start, v.first.renumber f, v.more.map (·.renumber f), v.following.map (·.renumber f)⟩

theorem upToUnit?_renumber (row : List Term) :
    upToUnit? (row.map (·.renumber f)) =
      (upToUnit? row).map fun (unit, after) =>
        (unit.map (·.renumber f), after.map (·.renumber f)) := by
  induction row with
  | nil => rfl
  | cons t rest ih =>
      rw [List.map_cons, upToUnit?, upToUnit?, Term.hasTag_renumber, ih]
      split
      · rw [Option.map_map, Option.map_map]
        rfl
      · rfl

theorem ofRow?_renumber (start : Nat) (row : List Term) :
    ofRow? start (row.map (·.renumber f)) = (ofRow? start row).map (·.renumber f) := by
  cases row with
  | nil => rfl
  | cons t rest =>
      rw [List.map_cons, ofRow?, ofRow?, Term.hasTag_renumber, upToUnit?_renumber]
      split
      · rcases upToUnit? rest with _ | ⟨unit, after⟩ <;> rfl
      · rfl

theorem at?_renumber (row : List Term) (start : Int) :
    at? (row.map (·.renumber f)) start = (at? row start).map (·.renumber f) := by
  unfold at?
  rcases start.toNat? with _ | n
  · rfl
  · rw [Option.bind_some, Option.bind_some, ← List.map_drop, ofRow?_renumber]

variable (v : View)

@[simp] theorem first_renumber : (v.renumber f).first = v.first.renumber f := rfl

theorem units_renumber : (v.renumber f).units = v.units.map (·.renumber f) := rfl

@[simp] theorem last_renumber : (v.renumber f).last = v.last.renumber f := by
  rw [last, last, renumber, List.getLastD_map]

@[simp] theorem adi?_renumber : (v.renumber f).adi? = v.adi? := by
  rw [adi?, adi?, units_renumber, List.findSome?_map]
  rfl

@[simp] theorem hasAdi_renumber (p : Pattern) : (v.renumber f).hasAdi p = v.hasAdi p := by
  rw [hasAdi, hasAdi, adi?_renumber]

@[simp] theorem isTaught_renumber (u : Text) : (v.renumber f).isTaught u = v.isTaught u := (rfl)

@[simp] theorem hasTag_renumber (tag : Tag) : (v.renumber f).hasTag tag = v.hasTag tag := by
  rw [hasTag, hasTag, units_renumber, List.any_map]
  rfl

@[simp] theorem hasLakshana_renumber (u : Text) :
    (v.renumber f).hasLakshana u = v.hasLakshana u := by
  rw [hasLakshana, hasLakshana, units_renumber, List.any_map]
  rfl

@[simp] theorem hasLakshanaIn_renumber (us : List Text) :
    (v.renumber f).hasLakshanaIn us = v.hasLakshanaIn us := by
  rw [hasLakshanaIn, hasLakshanaIn, units_renumber, List.any_map]
  rfl

@[simp] theorem hasTagIn_renumber (tags : List Tag) :
    (v.renumber f).hasTagIn tags = v.hasTagIn tags := by
  rw [hasTagIn, hasTagIn, funext (hasTag_renumber f v)]

@[simp] theorem isKnit_renumber : (v.renumber f).isKnit = v.isKnit :=
  hasTagIn_renumber f v _

end View

namespace Tag

def revoice (f : Prayoga → Prayoga) : Tag → Tag
  | .prayoga voice => .prayoga (f voice)
  | tag => tag

theorem revoice_id (tag : Tag) : tag.revoice id = tag := by cases tag <;> rfl

theorem map_revoice_id (tags : List Tag) : tags.map (·.revoice id) = tags :=
  (List.map_congr_left fun tag _ => tag.revoice_id).trans (List.map_id tags)

theorem revoice_injective {f : Prayoga → Prayoga} (hf : f.Injective) :
    (revoice f).Injective := by
  intro x y h
  cases x <;> cases y <;> simp_all [revoice, hf.eq_iff]

-- The passive and the impersonal.
def isPassive : Tag → Bool
  | .prayoga voice => voice != .kartari
  | _ => false

end Tag

-- Terms without a number get none, and the active voice is exchanged for no other.
structure Disguise where
  tell : Derivation → Derivation
  number : Option Int → Option Int
  voice : Prayoga → Prayoga
  number_none : number none = none
  voice_injective : voice.Injective
  voice_kartari : voice .kartari = .kartari
  terms : ∀ d, (tell d).terms = d.terms.map (·.renumber number)
  tags : ∀ d, (tell d).tags = d.tags.map (·.revoice voice)
  table : ∀ d, (tell d).table = d.table
  setTerms : ∀ (d : Derivation) (ts : List Term),
    { tell d with terms := ts.map (·.renumber number) } = tell { d with terms := ts }
  setTags : ∀ (d : Derivation) (tags : List Tag),
    { tell d with tags := tags.map (·.revoice voice) } = tell { d with tags := tags }
  record : ∀ (d : Derivation) (rule : Rule), (tell d).record rule = tell (d.record rule)

def Derivation.disguised (φ : Disguise) (d : Derivation) : Derivation := φ.tell d

-- A retelling is a disguise that leaves numbers and voices as they are.
def Retelling.disguise (φ : Retelling) : Disguise where
  tell := φ.tell
  number := id
  voice := id
  number_none := rfl
  voice_injective := Function.injective_id
  voice_kartari := rfl
  terms d := by rw [φ.terms, Term.map_renumber_id]
  tags d := by rw [φ.tags, Tag.map_revoice_id]
  table := φ.table
  setTerms d ts := by rw [Term.map_renumber_id, φ.setTerms]
  setTags d tags := by rw [Tag.map_revoice_id, φ.setTags]
  record := φ.record

variable (φ : Disguise)

namespace Outcome

def disguised (o : Outcome) : Outcome :=
  match o with
  | .done d => .done (d.disguised φ)
  | .failed fault d => .failed fault (d.disguised φ)

@[simp] theorem disguised_done (d : Derivation) : (done d).disguised φ = .done (d.disguised φ) :=
  rfl

@[simp] theorem disguised_failed (fault : Fault) (d : Derivation) :
    (failed fault d).disguised φ = .failed fault (d.disguised φ) := rfl

variable {φ}

-- `f` is applied to the disguise, `g` to what is disguised.
theorem andThen_disguised {f g : Derivation → Outcome}
    (h : ∀ d, f (d.disguised φ) = (g d).disguised φ) (o : Outcome) :
    (o.disguised φ).andThen f = (o.andThen g).disguised φ := by
  cases o with
  | done d => exact h d
  | failed fault d => rfl

theorem map_disguised {f g : Derivation → Derivation}
    (h : ∀ d, f (d.disguised φ) = (g d).disguised φ) (o : Outcome) :
    (o.disguised φ).map f = (o.map g).disguised φ :=
  andThen_disguised (fun d => congrArg done (h d)) o

end Outcome

-- A search finds the same term when the terms that it looks through are renumbered.
theorem lastIndex?_map (g : Term → Term) {f : Term → Bool} (hf : ∀ t, f (g t) = f t)
    (row : List Term) : lastIndex? f (row.map g) = lastIndex? f row := by
  induction row with
  | nil => rfl
  | cons t rest ih => rw [List.map_cons, lastIndex?, lastIndex?, ih, hf]

namespace Derivation

section Queries

variable (d : Derivation)

@[simp] theorem terms_disguised :
    (d.disguised φ).terms = d.terms.map (·.renumber φ.number) := φ.terms d

@[simp] theorem tags_disguised : (d.disguised φ).tags = d.tags.map (·.revoice φ.voice) := φ.tags d

@[simp] theorem table_disguised : (d.disguised φ).table = d.table := φ.table d

@[simp] theorem text_disguised : (d.disguised φ).text = d.text := by
  rw [text, terms_disguised, List.flatMap_map]
  rfl

@[simp] theorem term?_disguised (i : Int) :
    (d.disguised φ).term? i = (d.term? i).map (·.renumber φ.number) := by
  unfold term?
  rcases i.toNat? with _ | n
  · rfl
  · simp

@[simp] theorem view?_disguised (i : Int) :
    (d.disguised φ).view? i = (d.view? i).map (·.renumber φ.number) := by
  rw [view?, terms_disguised, View.at?_renumber, view?]

theorem hasTag_disguised (tag : Tag) :
    (d.disguised φ).hasTag (tag.revoice φ.voice) = d.hasTag tag := by
  rw [hasTag, hasTag, tags_disguised, Bool.eq_iff_iff, List.contains_iff_mem,
    List.contains_iff_mem, List.mem_map_of_injective (Tag.revoice_injective φ.voice_injective)]

@[simp] theorem hasTag_pada_disguised (pada : Pada) :
    (d.disguised φ).hasTag (.pada pada) = d.hasTag (.pada pada) :=
  hasTag_disguised φ d (.pada pada)

theorem hasTagIn_passive :
    d.hasTagIn [.prayoga .karmani, .prayoga .bhave] = d.tags.any Tag.isPassive := by
  rw [Bool.eq_iff_iff, List.any_eq_true]
  constructor
  · intro h
    obtain ⟨tag, hmem, htag⟩ := List.any_eq_true.mp h
    refine ⟨tag, by simpa [hasTag] using htag, ?_⟩
    simp only [List.mem_cons, List.not_mem_nil, or_false] at hmem
    rcases hmem with rfl | rfl <;> rfl
  · rintro ⟨tag, hmem, htag⟩
    refine List.any_eq_true.mpr ⟨tag, ?_, by simpa [hasTag] using hmem⟩
    unfold Tag.isPassive at htag
    split at htag
    · rename_i voice
      cases voice with
      | kartari => cases htag
      | karmani => decide
      | bhave => decide
    · cases htag

theorem isPassive_revoice (tag : Tag) : (tag.revoice φ.voice).isPassive = tag.isPassive := by
  cases tag
  case prayoga voice =>
    have hactive : φ.voice voice = .kartari ↔ voice = .kartari :=
      ⟨fun h => φ.voice_injective (h.trans φ.voice_kartari.symm), fun h => h ▸ φ.voice_kartari⟩
    simp [Tag.revoice, Tag.isPassive, bne, hactive]
  all_goals rfl

@[simp] theorem hasTagIn_passive_disguised :
    (d.disguised φ).hasTagIn [.prayoga .karmani, .prayoga .bhave] =
      d.hasTagIn [.prayoga .karmani, .prayoga .bhave] := by
  rw [hasTagIn_passive, hasTagIn_passive, tags_disguised, List.any_map]
  exact congrArg (List.any d.tags) (funext (isPassive_revoice φ))

variable {f : Term → Bool} (hf : ∀ t, f (t.renumber φ.number) = f t)
include hf

@[simp] theorem has_disguised (i : Int) : (d.disguised φ).has i f = d.has i f := by
  rw [has, has, term?_disguised, Option.any_map]
  exact congrArg (Option.any · (d.term? i)) (funext hf)

@[simp] theorem findFirst?_disguised : (d.disguised φ).findFirst? f = d.findFirst? f := by
  rw [findFirst?, findFirst?, terms_disguised, List.findIdx?_map]
  exact congrArg (List.findIdx? · d.terms) (funext hf)

@[simp] theorem findLast?_disguised : (d.disguised φ).findLast? f = d.findLast? f := by
  rw [findLast?, terms_disguised, lastIndex?_map _ hf, findLast?]

@[simp] theorem nextAfter?_disguised (i : Nat) :
    (d.disguised φ).nextAfter? i f = d.nextAfter? i f := by
  rw [nextAfter?, nextAfter?, terms_disguised, ← List.map_drop, List.findIdx?_map,
    show f ∘ (·.renumber φ.number) = f from funext hf]

@[simp] theorem lastBefore?_disguised (i : Nat) :
    (d.disguised φ).lastBefore? i f = d.lastBefore? i f := by
  rw [lastBefore?, terms_disguised, ← List.map_take, lastIndex?_map _ hf, lastBefore?]

end Queries

section Searches

variable (d : Derivation)

@[simp] theorem firstTagged?_disguised (tag : Tag) :
    (d.disguised φ).firstTagged? tag = d.firstTagged? tag :=
  findFirst?_disguised φ d fun _ => rfl

@[simp] theorem lastTagged?_disguised (tag : Tag) :
    (d.disguised φ).lastTagged? tag = d.lastTagged? tag :=
  findLast?_disguised φ d fun _ => rfl

end Searches

section Operations

variable (d : Derivation)

@[simp] theorem record_disguised (rule : Rule) :
    (d.disguised φ).record rule = (d.record rule).disguised φ := φ.record d rule

theorem setTerms_disguised (ts : List Term) :
    { d.disguised φ with terms := ts.map (·.renumber φ.number) } =
      ({ d with terms := ts } : Derivation).disguised φ :=
  φ.setTerms d ts

theorem addTag_disguised (tag : Tag) :
    (d.disguised φ).addTag (tag.revoice φ.voice) = (d.addTag tag).disguised φ := by
  have hinsert : Tag.insert (tag.revoice φ.voice) (d.tags.map (·.revoice φ.voice)) =
      (Tag.insert tag d.tags).map (·.revoice φ.voice) := by
    have hcontains := hasTag_disguised φ d tag
    rw [hasTag, hasTag, tags_disguised] at hcontains
    rw [Tag.insert, Tag.insert, hcontains]
    split
    · rfl
    · rw [List.map_append, List.map_singleton]
  rw [addTag, tags_disguised, hinsert]
  exact φ.setTags d _

@[simp] theorem addTag_pada_disguised (pada : Pada) :
    (d.disguised φ).addTag (.pada pada) = (d.addTag (.pada pada)).disguised φ :=
  addTag_disguised φ d (.pada pada)

theorem addTags_disguised (tags : List Tag) :
    (d.disguised φ).addTags (tags.map (·.revoice φ.voice)) = (d.addTags tags).disguised φ := by
  induction tags generalizing d with
  | nil => rfl
  | cons tag rest ih => exact (congrArg (addTags _) (addTag_disguised φ d tag)).trans (ih _)

-- The terms may be changed by two functions, if these make of a term and of the same one
-- renumbered the same.
theorem update_disguised_of {f g : Term → Term}
    (h : ∀ t, f (t.renumber φ.number) = (g t).renumber φ.number) (i : Int) :
    (d.disguised φ).update i f = (d.update i g).disguised φ := by
  unfold update
  split
  · rename_i n _
    have hrow : (d.terms.map (·.renumber φ.number)).modify n f =
        (d.terms.modify n g).map (·.renumber φ.number) := by
      refine List.ext_getElem? fun j => ?_
      simp only [List.getElem?_modify, List.getElem?_map]
      rcases d.terms[j]? with _ | t
      · rfl
      · simp only [Option.map_eq_map, Option.map_some]
        split
        · rw [h]
        · rfl
    rw [terms_disguised, hrow, setTerms_disguised]
  · rfl

@[simp] theorem push_disguised (t : Term) :
    (d.disguised φ).push (t.renumber φ.number) = (d.push t).disguised φ := by
  have hrow : d.terms.map (·.renumber φ.number) ++ [t.renumber φ.number] =
      (d.terms ++ [t]).map (·.renumber φ.number) := by
    rw [List.map_append, List.map_singleton]
  rw [push, terms_disguised, hrow, setTerms_disguised, push]

@[simp] theorem insertTerm_disguised {t : Term} (ht : t.number = none) (n : Nat) :
    (d.disguised φ).insertTerm n t = (d.insertTerm n t).disguised φ := by
  have hrow : (d.terms.map (·.renumber φ.number)).take n ++
      t :: (d.terms.map (·.renumber φ.number)).drop n =
        (d.terms.take n ++ t :: d.terms.drop n).map (·.renumber φ.number) := by
    rw [List.map_append, List.map_cons, t.renumber_of_none _ φ.number_none ht, List.map_take,
      List.map_drop]
  rw [insertTerm, terms_disguised, hrow, setTerms_disguised, insertTerm]

@[simp] theorem insertBefore_disguised {t : Term} (ht : t.number = none) (i : Int) :
    (d.disguised φ).insertBefore i t = (d.insertBefore i t).disguised φ := by
  rw [insertBefore, terms_disguised, List.length_map, insertTerm_disguised φ d ht, insertBefore]

@[simp] theorem insertAfter_disguised {t : Term} (ht : t.number = none) (i : Int) :
    (d.disguised φ).insertAfter i t = (d.insertAfter i t).disguised φ :=
  insertBefore_disguised φ d ht _

section Changes

variable {f : Term → Term} (hf : ∀ t, f (t.renumber φ.number) = (f t).renumber φ.number)
include hf

@[simp] theorem update_disguised (i : Int) :
    (d.disguised φ).update i f = (d.update i f).disguised φ :=
  update_disguised_of φ d hf i

@[simp] theorem alter_disguised (rule : Rule) (i : Int) :
    (d.disguised φ).alter rule i f = (d.alter rule i f).disguised φ := by
  unfold alter
  rw [term?_disguised, Option.isSome_map, update_disguised φ d hf, record_disguised]
  split <;> rfl

theorem alterIf_disguised {applies : Term → Bool}
    (happlies : ∀ t, applies (t.renumber φ.number) = applies t) (rule : Rule) (i : Int) :
    (d.disguised φ).alterIf rule i applies f =
      ((d.alterIf rule i applies f).1, (d.alterIf rule i applies f).2.disguised φ) := by
  unfold alterIf
  rw [has_disguised φ d happlies, alter_disguised φ d hf]
  split <;> rfl

end Changes

variable {φ}

theorem foldl_disguised {α : Type} {f g : Derivation → α → Derivation}
    (h : ∀ d a, f (d.disguised φ) a = (g d a).disguised φ) (l : List α) :
    l.foldl f (d.disguised φ) = (l.foldl g d).disguised φ := by
  induction l generalizing d with
  | nil => rfl
  | cons a rest ih => rw [List.foldl_cons, h, ih, List.foldl_cons]

theorem forEach_disguised {visit : Derivation → Nat → Derivation}
    (h : ∀ d i, visit (d.disguised φ) i = (visit d i).disguised φ) :
    (d.disguised φ).forEach visit = (d.forEach visit).disguised φ := by
  rw [forEach, terms_disguised, List.length_map]
  exact foldl_disguised d h _

end Operations

section Sounds

variable (d : Derivation)

theorem locate?_renumber (f : Option Int → Option Int) (row : List Term) (k : Nat) :
    locate? (row.map (·.renumber f)) k = locate? row k := by
  induction row generalizing k with
  | nil => rfl
  | cons t rest ih => rw [List.map_cons, locate?, locate?, Term.text_renumber, ih]

theorem spliceTerms_renumber (f : Option Int → Option Int) (row : List Term) (k : Nat)
    (s : Text) :
    spliceTerms (row.map (·.renumber f)) k s = (spliceTerms row k s).map (·.renumber f) := by
  induction row generalizing k with
  | nil => rfl
  | cons t rest ih =>
      rw [List.map_cons, spliceTerms, spliceTerms, Term.text_renumber, ih]
      split <;> rfl

@[simp] theorem ownerIndex?_disguised (k : Int) :
    (d.disguised φ).ownerIndex? k = d.ownerIndex? k := by
  simp only [ownerIndex?, terms_disguised, locate?_renumber]

@[simp] theorem owner?_disguised (k : Int) :
    (d.disguised φ).owner? k = (d.owner? k).map (·.renumber φ.number) := by
  simp only [owner?, ownerIndex?_disguised, terms_disguised, List.getElem?_map, Option.map_bind]
  rfl

@[simp] theorem splice_disguised (k : Int) (s : Text) :
    (d.disguised φ).splice k s = (d.splice k s).disguised φ := by
  unfold splice
  split
  · rw [terms_disguised, spliceTerms_renumber, setTerms_disguised]
  · rfl

end Sounds

end Derivation

namespace Site

variable (s : Site)

def disguised : Site := { s with derivation := s.derivation.disguised φ }

@[simp] theorem here?_disguised : (s.disguised φ).here? = s.here? := rfl

@[simp] theorem next?_disguised : (s.disguised φ).next? = s.next? := rfl

@[simp] theorem prev?_disguised : (s.disguised φ).prev? = s.prev? := rfl

@[simp] theorem owner?_disguised :
    (s.disguised φ).owner? = s.owner?.map (·.renumber φ.number) :=
  Derivation.owner?_disguised φ s.derivation _

@[simp] theorem isBoundary_disguised : (s.disguised φ).isBoundary = s.isBoundary := by
  simp [isBoundary, disguised]

@[simp] theorem replace_disguised (sub : Text) :
    (s.disguised φ).replace sub = (s.replace sub).disguised φ :=
  Derivation.splice_disguised φ s.derivation _ sub

@[simp] theorem replaceNext_disguised (sub : Text) :
    (s.disguised φ).replaceNext sub = (s.replaceNext sub).disguised φ :=
  Derivation.splice_disguised φ s.derivation _ sub

@[simp] theorem merge_disguised (sub : Text) :
    (s.disguised φ).merge sub = (s.merge sub).disguised φ := by
  rw [merge, replaceNext_disguised, Derivation.splice_disguised, merge]
  rfl

end Site

namespace SoundRule

-- The rule acts in the same way on the derivation and on its disguise.
structure Impartial (r : SoundRule) (φ : Disguise) : Prop where
  applies : ∀ s, r.applies (s.disguised φ) = r.applies s
  act : ∀ s, r.act (s.disguised φ) = ((r.act s).1.disguised φ, (r.act s).2)

variable {φ}

theorem impartial_recorded {rule : Rule} {applies : Site → Bool} {change : Site → Derivation}
    (happlies : ∀ s, applies (s.disguised φ) = applies s)
    (hchange : ∀ s, change (s.disguised φ) = (change s).disguised φ) :
    (recorded rule applies change).Impartial φ where
  applies := happlies
  act s := by simp only [recorded, hchange, Derivation.record_disguised]

theorem Impartial.scan {r : SoundRule} (h : r.Impartial φ) (text : Text) (offsets : List Nat)
    (d : Derivation) :
    r.scan text offsets (d.disguised φ) =
      ((r.scan text offsets d).1.disguised φ, (r.scan text offsets d).2) := by
  induction offsets generalizing d with
  | nil => rfl
  | cons offset rest ih =>
      have happlies : r.applies ⟨d.disguised φ, text, offset⟩ = r.applies ⟨d, text, offset⟩ :=
        h.applies ⟨d, text, offset⟩
      have hact : r.act ⟨d.disguised φ, text, offset⟩ = _ := h.act ⟨d, text, offset⟩
      simp only [SoundRule.scan, happlies, hact]
      split
      · rcases r.act ⟨d, text, offset⟩ with ⟨e, _ | _⟩
        · exact ih e
        · rfl
      · exact ih d

theorem Impartial.scanAll {r : SoundRule} (h : r.Impartial φ) (d : Derivation) :
    r.scanAll (d.disguised φ) = ((r.scanAll d).1.disguised φ, (r.scanAll d).2) := by
  rw [SoundRule.scanAll, Derivation.text_disguised, h.scan, SoundRule.scanAll]

theorem Impartial.sweep? {r : SoundRule} (h : r.Impartial φ) (limit : Nat) (d : Derivation) :
    r.sweep? limit (d.disguised φ) =
      (r.sweep? limit d).map fun (e, n) => (e.disguised φ, n) := by
  induction limit generalizing d with
  | zero =>
      rcases hscan : r.scanAll d with ⟨e, reported⟩
      have htold : r.scanAll (d.disguised φ) = (e.disguised φ, reported) := by
        rw [h.scanAll, hscan]
      cases reported with
      | false => rw [sweep?_of_still hscan, sweep?_of_still htold, Option.map_some]
      | true => rw [sweep?_zero_of_change hscan, sweep?_zero_of_change htold, Option.map_none]
  | succ limit ih =>
      rcases hscan : r.scanAll d with ⟨e, reported⟩
      have htold : r.scanAll (d.disguised φ) = (e.disguised φ, reported) := by
        rw [h.scanAll, hscan]
      cases reported with
      | false => rw [sweep?_of_still hscan, sweep?_of_still htold, Option.map_some]
      | true =>
          rw [sweep?_of_change hscan, sweep?_of_change htold, ih, Option.map_map, Option.map_map]
          rfl

theorem Impartial.sweep {r : SoundRule} (h : r.Impartial φ) (limit : Nat) (d : Derivation) :
    (d.disguised φ).sweep r limit = (d.sweep r limit).disguised φ := by
  rw [Derivation.sweep, Derivation.sweep, h.sweep?]
  rcases r.sweep? limit d with _ | ⟨e, n⟩ <;> rfl

end SoundRule

end Vyakarana
