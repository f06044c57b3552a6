import Vyakarana.Derivation

/-!
Markers (1.3.2 to 1.3.9).

A root, suffix or augment is taught with markers, sounds that are not pronounced but
direct other rules. `Stripping.run` reads the markers off a taught form, turns each into
a tag and drops it from the text; `dropMarkers` does so inside a derivation. It fails only
on a sound that is to be dropped and marks nothing.
-/

namespace Vyakarana

-- What a sound marks when it is dropped.
def Tag.ofMarker (sound : Text) : Except Fault Tag :=
  match sound with
  | [c] =>
    match Marker.ofSound? c with
    | some marker => .ok (.it marker)
    | none => .error (.notMarker sound)
  | _ => .error (.notMarker sound)

-- A term on its way to losing its markers, with the rules applied so far and what the
-- term was like after each.
structure Stripping where
  term : Term
  steps : List (Rule × Term)
  fault : Option Fault

namespace Stripping

def note (rule : Rule) (s : Stripping) : Stripping :=
  { s with steps := s.steps ++ [(rule, s.term)] }

def change (f : Term → Term) (s : Stripping) : Stripping := { s with term := f s.term }

def fail (fault : Fault) (s : Stripping) : Stripping := { s with fault := some fault }

-- A closing ir is one marker, with its accent.
def endsInIr (t : Text) : Bool := "i~r".toList.isSuffixOf t || "i~^r".toList.isSuffixOf t

def dropIr (t : Term) : Term :=
  if "i~r".toList.isSuffixOf t.text then
    (t.setText (t.text.take (t.text.length - 3))).addTag (.it .ir)
  else if "i~^r".toList.isSuffixOf t.text then
    (t.setText (t.text.take (t.text.length - 4))).addTags [.it .ir, .svaritet]
  else t

def isAccent (c : Char) : Bool := c == '\\' || c == '^'

-- The nasal vowels of a text, each with the accent written after it.
def nasalVowels : Text → List (Char × Option Char)
  | [] => []
  | v :: rest =>
    if Sound.isAc v && rest.head? == some '~' then
      (v, rest[1]?.filter isAccent) :: nasalVowels rest
    else nasalVowels rest

-- How many characters after the vowel belong to a nasal vowel, if this is one.
def nasalTail? (v : Char) (rest : Text) : Option Nat :=
  if Sound.isAc v && rest.head? == some '~' then
    some (if rest[1]?.any isAccent then 2 else 1)
  else none

def withoutNasalsFrom : Nat → Text → Text
  | _, [] => []
  | skip + 1, _ :: rest => withoutNasalsFrom skip rest
  | 0, v :: rest =>
    match nasalTail? v rest with
    | some width => withoutNasalsFrom width rest
    | none => v :: withoutNasalsFrom 0 rest

def withoutNasals (t : Text) : Text := withoutNasalsFrom 0 t

-- The tags of a nasal vowel: its accent, and what the vowel marks.
def nasalTags (v : Char) (accent : Option Char) : Except Fault (List Tag) :=
  (Tag.ofMarker [v]).map fun tag =>
    match accent with
    | some '\\' => [.anudattet, tag]
    | some _ => [.svaritet, tag]
    | none => [tag]

def allNasalTags (t : Text) : Except Fault (List Tag) :=
  ((nasalVowels t).mapM fun (v, accent) => nasalTags v accent).map List.flatten

-- 1.3.2: a nasal vowel of a taught form is a marker.
def dropNasals (tags : List Tag) (s : Stripping) : Stripping :=
  if tags.isEmpty then s
  else (s.change fun t => (t.setText (withoutNasals t.text)).addTags tags).note "1.3.2"

-- The accents that are left belong to kept sounds.
def readAccents (s : Stripping) : Stripping :=
  s.change fun t =>
    let low := if t.text.contains '\\' then t.addTag .anudatta else t
    let marked := if t.text.contains '^' then low.addTag .svarita else low
    marked.setText (t.text.filter fun c => !isAccent c)

-- A vibhakti keeps a final tu, s or m.
def tusma : SoundClass := .ofText "tTdDnsm".toList

-- 1.3.3: a final consonant is a marker. `u` is the taught form.
def dropFinal (u : Text) (s : Stripping) : Stripping :=
  match u.getLast? with
  | none => s
  | some final =>
    if !Sound.isHal final then s
    else if s.term.hasTag .vibhakti && tusma.contains final then s.note "1.3.4"
    else
      match Marker.ofSound? final with
      | none => s
      | some marker =>
        if s.term.antya? == some final then
          (s.change fun t => (t.addTag (.it marker)).setText t.text.dropLast).note "1.3.3"
        else s

-- The initial markers of roots.
def rootInitials : List (Text × Marker) :=
  [("Yi".toList, .Yi), ("wu".toList, .wu), ("qu".toList, .qu)]

-- 1.3.5
def dropRootInitial (s : Stripping) : Stripping :=
  if s.term.hasTag .dhatu then
    match rootInitials.find? fun (initial, _) => initial.isPrefixOf s.term.text with
    | some (initial, marker) =>
      (s.change fun t => (t.setText (t.text.drop initial.length)).addTag (.it marker)).note "1.3.5"
    | none => s
  else s

def dropFirst (marker : Marker) (rule : Rule) (s : Stripping) : Stripping :=
  (s.change fun t => (t.addTag (.it marker)).setText (t.text.drop 1)).note rule

-- Initial cu and wu stops of suffixes are markers, but these four stay for later rules.
def cutu : SoundClass := .ofText "cCjJYwWqQR".toList

def keptCutu : SoundClass := .ofText "CJWQ".toList

def lashaku : SoundClass := .ofText "lSkKgGN".toList

def lakaras : List Text := Lakara.all.map (·.upadesha)

-- 1.3.6 to 1.3.8: the initial marker of a suffix.
def dropSuffixInitial (u : Text) (s : Stripping) : Stripping :=
  if !s.term.hasTag .pratyaya then s
  else
    match u.head? with
    | none => s
    | some first =>
      if first == 'z' then s.dropFirst .z "1.3.6"
      else if cutu.contains first then
        if keptCutu.contains first then s
        else
          match Marker.ofSound? first with
          | some marker => s.dropFirst marker "1.3.7"
          | none => s.fail (.notMarker [first])
      else if !s.term.hasTag .taddhita && lashaku.contains first && !lakaras.contains u then
        match Marker.ofSound? first with
        | some marker => s.dropFirst marker "1.3.8"
        | none => s
      else s

-- 1.3.9: whatever was found to be a marker is gone.
def conclude (u : Text) (s : Stripping) : Stripping :=
  if s.fault.isNone && s.term.text != u then s.note "1.3.9" else s

-- `u` is the form as taught; the text of the term may already differ from it.
def run (t : Term) (u : Text) : Stripping :=
  let s : Stripping := ⟨dropIr t, [], none⟩
  match allNasalTags s.term.text with
  | .error fault => s.fail fault
  | .ok tags =>
    let s := (s.dropNasals tags).readAccents
    let s := if endsInIr t.text then s else s.dropFinal u
    (s.dropRootInitial.dropSuffixInitial u).conclude u

end Stripping

namespace Derivation

-- Records the rules of a stripping in order, and leaves the term as the stripping does.
def replay (i : Int) (s : Stripping) (d : Derivation) : Outcome :=
  let d := s.steps.foldl (fun d (rule, t) => (d.update i fun _ => t).record rule) d
  let d := d.update i fun _ => s.term
  match s.fault with
  | none => .done d
  | some fault => .failed fault d

-- A term that was not taught has no markers.
def dropMarkers (i : Int) (d : Derivation) : Outcome :=
  match d.term? i with
  | none => .done d
  | some t =>
    match t.upadesha with
    | none => .done d
    | some u => d.replay i (Stripping.run t u)

-- Puts another taught form in the place of a term.
def substitute (rule : Rule) (i : Int) (sub : Text) (d : Derivation) : Outcome :=
  if (d.term? i).isSome then ((d.update i (·.setUpadesha sub)).record rule).dropMarkers i
  else .done d

def augmentBefore (rule : Rule) (i : Int) (u : Text) (d : Derivation) : Outcome :=
  ((d.insertBefore i (.ofAgama u)).record rule).dropMarkers i

def augmentAfter (rule : Rule) (i : Int) (u : Text) (d : Derivation) : Outcome :=
  ((d.insertAfter i (.ofAgama u)).record rule).dropMarkers (i + 1)

-- A new suffix after the term at `i`.
def suffixAfter (rule : Rule) (i : Nat) (u : Text) (tags : List Tag) (d : Derivation) : Outcome :=
  ((d.insertTerm (i + 1) ((Term.ofUpadesha u).addTags tags)).record rule).dropMarkers
    ((i + 1 : Nat) : Int)

end Derivation

end Vyakarana
