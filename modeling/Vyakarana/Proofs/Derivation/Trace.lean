import Vyakarana.Proofs.Derivation.Exchange

/-!
The trace of a derivation.

A rule changes the text and records its step by hand, one after the other. Its trace is faithful
if the text never runs ahead of the steps: the last step recorded has the text of the derivation
as its result. `Recounts` states this of what has become of a derivation, and `RecountsBy` says
which rules the steps are of. Changes that are heard need a step after them, changes of tags alone
do not.
-/

namespace Vyakarana

namespace Derivation

variable {d e f : Derivation}

-- Whether steps are noted, and the steps noted so far.
def trace (d : Derivation) : Bool × List Step := (d.recording, d.history)

@[simp] theorem trace_addTag (tag : Tag) (d : Derivation) : (d.addTag tag).trace = d.trace := rfl

@[simp] theorem trace_push (t : Term) (d : Derivation) : (d.push t).trace = d.trace := rfl

@[simp] theorem trace_insertTerm (n : Nat) (t : Term) (d : Derivation) :
    (d.insertTerm n t).trace = d.trace := rfl

@[simp] theorem trace_update (i : Int) (f : Term → Term) (d : Derivation) :
    (d.update i f).trace = d.trace := by
  unfold update
  split <;> rfl

@[simp] theorem trace_splice (k : Int) (sub : Text) (d : Derivation) :
    (d.splice k sub).trace = d.trace := by
  unfold splice
  split <;> rfl

@[simp] theorem trace_accept (rule : Rule) (d : Derivation) : (d.accept rule).trace = d.trace := rfl

@[simp] theorem text_addTag (tag : Tag) (d : Derivation) : (d.addTag tag).text = d.text := rfl

@[simp] theorem text_accept (rule : Rule) (d : Derivation) : (d.accept rule).text = d.text := rfl

@[simp] theorem text_decline (rule : Rule) (d : Derivation) : (d.decline rule).text = d.text := rfl

-- A change of a term that is not heard.
theorem text_update {i : Int} {f : Term → Term} {d : Derivation}
    (h : ∀ t, d.term? i = some t → (f t).text = t.text) : (d.update i f).text = d.text := by
  unfold update
  split
  · rename_i n hn
    rw [text, List.modify_eq_take_drop, text]
    conv_rhs => rw [← List.take_append_drop n d.terms]
    cases hdrop : d.terms.drop n with
    | nil => rfl
    | cons t rest =>
        have ht : d.term? i = some t := by
          rw [term?, hn, Option.bind_some, ← List.head?_drop, hdrop, List.head?_cons]
        simp [List.modifyHead, h t ht]
  · rfl

-- `e` is what has become of `d`. Either no step was noted and the text is the same, or the result
-- of the last step that was noted is the text.
structure Recounts (e d : Derivation) : Prop where
  recording : e.recording = d.recording
  tells : d.recording = true → e.history = d.history ∧ e.text = d.text ∨
    ∃ steps rule, e.history = d.history ++ steps ++ [⟨rule, e.text⟩]

theorem Recounts.trans (hf : f.Recounts e) (he : e.Recounts d) : f.Recounts d where
  recording := hf.recording.trans he.recording
  tells hrecording := by
    rcases hf.tells (he.recording.trans hrecording) with ⟨hhistory, htext⟩ | ⟨later, rule, hlater⟩
    · rw [hhistory, htext]
      exact he.tells hrecording
    · rcases he.tells hrecording with ⟨hhistory, -⟩ | ⟨steps, rule', hsteps⟩
      · exact .inr ⟨later, rule, by rw [hlater, hhistory]⟩
      · refine .inr ⟨steps ++ [⟨rule', e.text⟩] ++ later, rule, ?_⟩
        rw [hlater, hsteps]
        simp only [List.append_assoc]

-- `e` recounts what has become of `d`, and the steps that it adds are of rules in `told`.
structure RecountsBy (e : Derivation) (told : Rule → Bool) (d : Derivation) : Prop
    extends e.Recounts d where
  adds : ∃ steps, e.history = d.history ++ steps ∧ ∀ step ∈ steps, told step.rule = true

section Told

variable {told : Rule → Bool} {rule : Rule}

theorem recountsBy_of_trace (htrace : e.trace = d.trace) (htext : e.text = d.text) :
    e.RecountsBy told d where
  recording := congrArg Prod.fst htrace
  tells _ := .inl ⟨congrArg Prod.snd htrace, htext⟩
  adds := ⟨[], by rw [List.append_nil]; exact congrArg Prod.snd htrace, List.forall_mem_nil _⟩

@[simp] theorem recountsBy_self (told : Rule → Bool) (d : Derivation) : d.RecountsBy told d :=
  recountsBy_of_trace rfl rfl

theorem RecountsBy.trans (hf : f.RecountsBy told e) (he : e.RecountsBy told d) :
    f.RecountsBy told d where
  toRecounts := hf.toRecounts.trans he.toRecounts
  adds := by
    obtain ⟨later, hlater, htold⟩ := hf.adds
    obtain ⟨steps, hsteps, htold'⟩ := he.adds
    exact ⟨steps ++ later, by rw [hlater, hsteps, List.append_assoc],
      List.forall_mem_append.mpr ⟨htold', htold⟩⟩

theorem RecountsBy.mono {told' : Rule → Bool} (h : e.RecountsBy told d)
    (hsub : ∀ rule, told rule = true → told' rule = true) : e.RecountsBy told' d where
  toRecounts := h.toRecounts
  adds := by
    obtain ⟨steps, hsteps, htold⟩ := h.adds
    exact ⟨steps, hsteps, fun step hstep => hsub _ (htold step hstep)⟩

-- No step is added but of the rules that are told.
theorem RecountsBy.filter_history {sought : Rule → Bool} (h : e.RecountsBy told d)
    (hno : ∀ rule, told rule = true → sought rule = false) :
    e.history.filter (sought ·.rule) = d.history.filter (sought ·.rule) := by
  obtain ⟨steps, hsteps, htold⟩ := h.adds
  have hnone : steps.filter (sought ·.rule) = [] := by
    apply List.filter_eq_nil_iff.mpr
    intro step hstep
    rw [hno _ (htold step hstep)]
    exact Bool.false_ne_true
  rw [hsteps, List.filter_append, hnone, List.append_nil]

-- Whatever was changed, a step after the change tells it.
theorem recountsBy_record_of_trace (h : told rule = true) (htrace : e.trace = d.trace) :
    (e.record rule).RecountsBy told d := by
  have hrecording : e.recording = d.recording := congrArg Prod.fst htrace
  have hhistory : e.history = d.history := congrArg Prod.snd htrace
  unfold record
  split
  · refine ⟨⟨hrecording, fun _ => .inr ⟨[], rule, by simp [hhistory, text]⟩⟩, ?_⟩
    exact ⟨[⟨rule, e.text⟩], by simp [hhistory], List.forall_mem_singleton.mpr h⟩
  · rename_i hoff
    exact ⟨⟨hrecording, fun hon => absurd (hrecording.trans hon) hoff⟩, [], by simp [hhistory],
      List.forall_mem_nil _⟩

@[simp] theorem recountsBy_record (h : told rule = true) (d : Derivation) :
    (d.record rule).RecountsBy told d :=
  recountsBy_record_of_trace h rfl

theorem recountsBy_update {f : Term → Term} (hf : ∀ t, (f t).text = t.text) (i : Int)
    (d : Derivation) : (d.update i f).RecountsBy told d :=
  recountsBy_of_trace (trace_update i f d) (text_update fun t _ => hf t)

@[simp] theorem recountsBy_alter (h : told rule = true) (i : Int) (f : Term → Term)
    (d : Derivation) : (d.alter rule i f).RecountsBy told d := by
  unfold alter
  split
  · exact recountsBy_record_of_trace h (trace_update i f d)
  · exact recountsBy_self told d

@[simp] theorem recountsBy_alterIf (h : told rule = true) (i : Int) (applies : Term → Bool)
    (f : Term → Term) (d : Derivation) : (d.alterIf rule i applies f).2.RecountsBy told d := by
  unfold alterIf
  split
  · exact recountsBy_alter h i f d
  · exact recountsBy_self told d

theorem RecountsBy.ite {c : Prop} [Decidable c] (he : e.RecountsBy told d)
    (hf : f.RecountsBy told d) : (if c then e else f).RecountsBy told d := by
  split
  · exact he
  · exact hf

-- Each alteration is told by its rule.
theorem Alters.recountsBy {may : Nat → Term → Rule → (Term → Term) → Prop} (h : Alters may d e)
    (hmay : ∀ i t rule change, may i t rule change → told rule = true) : e.RecountsBy told d :=
  h.relates (R := fun d e => e.RecountsBy told d) (recountsBy_self told)
    (fun _ _ _ hcd hde => hde.trans hcd)
    fun e i t rule change _ hchange => recountsBy_alter (hmay i t rule change hchange) i change e

theorem recountsBy_decline (rule : Rule) (d : Derivation) : (d.decline rule).RecountsBy told d :=
  recountsBy_of_trace rfl rfl

theorem recountsBy_optionally {change : Derivation → Derivation}
    (hchange : ∀ e, (change e).trace = e.trace) (h : told rule = true) (d : Derivation) :
    (d.optionally rule change).2.RecountsBy told d := by
  rcases optionally_cases rule change d with ⟨-, heq⟩ | ⟨-, heq⟩
  · rw [heq]
    exact recountsBy_record_of_trace h (hchange _)
  · rw [heq]
    exact recountsBy_decline rule d

end Told

end Derivation

namespace Outcome

-- If the rule ends well, the trace accounts for what has become of `d`.
def Recounts (o : Outcome) (d : Derivation) : Prop := o.Ends (·.Recounts d) fun _ => True

-- The same, by steps of rules in `told`.
def RecountsBy (o : Outcome) (told : Rule → Bool) (d : Derivation) : Prop :=
  o.Ends (·.RecountsBy told d) fun _ => True

variable {told : Rule → Bool} {o : Outcome} {d e : Derivation}

theorem RecountsBy.recounts (h : o.RecountsBy told d) : o.Recounts d :=
  h.imp (fun _ hf => hf.toRecounts) fun _ h => h

theorem RecountsBy.mono {told' : Rule → Bool} (h : o.RecountsBy told d)
    (hsub : ∀ rule, told rule = true → told' rule = true) : o.RecountsBy told' d :=
  h.imp (fun _ hf => hf.mono hsub) fun _ h => h

theorem RecountsBy.trans (h : o.RecountsBy told d) (hd : d.RecountsBy told e) :
    o.RecountsBy told e :=
  h.imp (fun _ hf => hf.trans hd) fun _ h => h

theorem RecountsBy.map (h : o.RecountsBy told d) (f : Derivation → Derivation)
    (hf : ∀ e, (f e).RecountsBy told e) : (o.map f).RecountsBy told d :=
  Ends.map h f fun e he => (hf e).trans he

theorem RecountsBy.andThen (h : o.RecountsBy told d) (next : Derivation → Outcome)
    (hnext : ∀ e, (next e).RecountsBy told e) : (o.andThen next).RecountsBy told d :=
  Ends.andThen h next fun e he => (hnext e).trans he

end Outcome

theorem Site.trace_merge (s : Site) (sub : Text) : (s.merge sub).trace = s.derivation.trace := by
  rw [merge, Derivation.trace_splice, replaceNext, Derivation.trace_splice]

theorem Site.Exchange.recountsBy {told : Rule → Bool} {may : Rule → Text → Prop} {s : Site}
    {e : Derivation} (h : s.Exchange may e) (hmay : ∀ rule sub, may rule sub → told rule = true) :
    e.RecountsBy told s.derivation := by
  cases h with
  | still => exact Derivation.recountsBy_self told s.derivation
  | here h =>
      exact Derivation.recountsBy_record_of_trace (hmay _ _ h) (Derivation.trace_splice _ _ _)
  | next h =>
      exact Derivation.recountsBy_record_of_trace (hmay _ _ h) (Derivation.trace_splice _ _ _)
  | both h => exact Derivation.recountsBy_record_of_trace (hmay _ _ h) (s.trace_merge _)

namespace SoundRule

variable {told : Rule → Bool}

-- Whatever the rule does, it records it.
def RecountsBy (r : SoundRule) (told : Rule → Bool) : Prop :=
  ∀ s, (r.act s).1.RecountsBy told s.derivation

-- Each exchange is told by its rule.
theorem Exchanges.recountsBy {r : SoundRule} {may : Rule → Text → Prop} (h : r.Exchanges may)
    (hmay : ∀ rule sub, may rule sub → told rule = true) : r.RecountsBy told :=
  fun s => (h s).recountsBy hmay

theorem Rests.recountsBy {r : SoundRule} (h : r.RecountsBy told) {d e : Derivation}
    (hrests : r.Rests d e) : e.RecountsBy told d :=
  hrests.relates (R := fun d e => e.RecountsBy told d) (Derivation.recountsBy_self told)
    (fun _ _ _ hde hef => hef.trans hde) h

end SoundRule

end Vyakarana
