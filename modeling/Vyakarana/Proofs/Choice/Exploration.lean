import Vyakarana.Proofs.Choice.Choices

/-!
What the search through the choices does: it comes to an end, it runs what it enlists, and
it enlists, up to the order of entries, every branch of every run.
-/

namespace Vyakarana

namespace Agenda

theorem enlist_known (a : Agenda) (choices : Choices) :
    (a.enlist choices).known = a.known ∧ (a.enlist choices).pending = a.pending ∨
      (∀ k ∈ a.known, choices.agreesWith k = false) ∧
        (a.enlist choices).known = choices :: a.known ∧
        (a.enlist choices).pending = choices :: a.pending := by
  unfold enlist
  split
  · exact .inl ⟨rfl, rfl⟩
  · rename_i h
    refine .inr ⟨fun k hk => ?_, rfl, rfl⟩
    simpa using fun he => h (List.any_eq_true.mpr ⟨k, hk, he⟩)

-- What holds of an agenda at all times: what is pending is known, and no two of the known
-- choices are the same.
structure Valid (rules : List Rule) (a : Agenda) : Prop where
  proper : ∀ c ∈ a.known, c.Proper rules
  distinct : a.known.Pairwise fun c k => c.agreesWith k = false
  pending : ∀ c ∈ a.pending, c ∈ a.known

theorem valid_start (rules : List Rule) : Valid rules start where
  proper := by simpa [start] using Choices.proper_nil rules
  distinct := by simp [start]
  pending := by simp [start]

theorem Valid.drop_first {rules : List Rule} {choices : Choices} {rest known : List Choices}
    (h : Valid rules ⟨choices :: rest, known⟩) : Valid rules ⟨rest, known⟩ :=
  ⟨h.proper, h.distinct, fun c hc => h.pending c (List.mem_cons_of_mem _ hc)⟩

theorem Valid.enlist {rules : List Rule} {a : Agenda} {choices : Choices} (h : Valid rules a)
    (hc : choices.Proper rules) : Valid rules (a.enlist choices) := by
  rcases enlist_known a choices with ⟨hk, hp⟩ | ⟨hnew, hk, hp⟩
  · exact ⟨by rw [hk]; exact h.proper, by rw [hk]; exact h.distinct,
      by rw [hk, hp]; exact h.pending⟩
  · refine ⟨?_, ?_, ?_⟩
    · rw [hk]
      exact List.forall_mem_cons.mpr ⟨hc, h.proper⟩
    · rw [hk]
      exact List.pairwise_cons.mpr ⟨hnew, h.distinct⟩
    · rw [hk, hp]
      intro c hm
      rcases List.mem_cons.mp hm with rfl | hm
      · exact List.mem_cons_self
      · exact List.mem_cons_of_mem _ (h.pending c hm)

theorem Valid.enlistAll {rules : List Rule} {a : Agenda} {branches : List Choices}
    (h : Valid rules a) (hb : ∀ b ∈ branches, b.Proper rules) :
    Valid rules (a.enlistAll branches) := by
  induction branches generalizing a with
  | nil => exact h
  | cons b rest ih =>
      exact ih (h.enlist (hb b List.mem_cons_self)) fun c hc => hb c (List.mem_cons_of_mem _ hc)

-- Enlisting lengthens both lists by the same choices, and a branch that is left out is
-- known already.
structure Extends (a b : Agenda) (branches : List Choices) : Prop where
  known : ∀ c ∈ a.known, c ∈ b.known
  pending : ∀ c ∈ a.pending, c ∈ b.pending
  fresh : ∀ c ∈ b.known, c ∈ a.known ∨ c ∈ b.pending
  covers : ∀ c ∈ branches, ∃ k ∈ b.known, c.agreesWith k = true
  balance : b.known.length + a.pending.length = a.known.length + b.pending.length

theorem extends_enlist (a : Agenda) (choices : Choices) :
    Extends a (a.enlist choices) [choices] := by
  unfold enlist
  split
  · rename_i h
    obtain ⟨k, hk, he⟩ := List.any_eq_true.mp h
    exact ⟨fun _ h => h, fun _ h => h, fun _ h => .inl h, by simpa using ⟨k, hk, he⟩, rfl⟩
  · refine ⟨fun _ h => List.mem_cons_of_mem _ h, fun _ h => List.mem_cons_of_mem _ h,
      fun c hc => ?_, ?_, ?_⟩
    · rcases List.mem_cons.mp hc with rfl | hc
      · exact .inr List.mem_cons_self
      · exact .inl hc
    · simpa using .inl (Choices.agreesWith_self choices)
    · simp only [List.length_cons]
      omega

theorem extends_enlistAll (a : Agenda) (branches : List Choices) :
    Extends a (a.enlistAll branches) branches := by
  induction branches generalizing a with
  | nil => exact ⟨fun _ h => h, fun _ h => h, fun _ h => .inl h, by simp, rfl⟩
  | cons b rest ih =>
      have hone := extends_enlist a b
      have hrest := ih (a.enlist b)
      refine ⟨fun c hc => hrest.known c (hone.known c hc),
        fun c hc => hrest.pending c (hone.pending c hc), fun c hc => ?_, fun c hc => ?_, ?_⟩
      · rcases hrest.fresh c hc with hc | hc
        · exact (hone.fresh c hc).imp_right fun h => hrest.pending c h
        · exact .inr hc
      · rcases List.mem_cons.mp hc with rfl | hc
        · obtain ⟨k, hk, he⟩ := hone.covers c List.mem_cons_self
          exact ⟨k, hrest.known k hk, he⟩
        · exact hrest.covers c hc
      · have h₁ := hone.balance
        have h₂ := hrest.balance
        simp only [enlistAll, List.foldl_cons] at h₂ ⊢
        omega

end Agenda

namespace Run

variable {run : Run} {rules : List Rule}

-- Every run gives a derivation whose ledger names only these rules.
def Names (run : Run) (rules : List Rule) : Prop :=
  ∀ choices, ∃ d, run choices = .done d ∧ ∀ x ∈ d.ledger, x.rule ∈ rules

-- The runs made and those pending are as many as the known choices, and of these there are
-- no more than 3^n.
theorem explore_ok (hrun : run.Names rules) (limit : Nat) (a : Agenda) (ha : a.Valid rules)
    (hlimit : 3 ^ rules.eraseDups.length + a.pending.length ≤ limit + a.known.length) :
    ∃ ds, run.explore limit a = .ok ds := by
  induction limit generalizing a with
  | zero =>
      have hk := Choices.length_le_of_pairwise_disagree ha.proper ha.distinct
      have hp : a.pending = [] := List.length_eq_zero_iff.mp (by omega)
      exact ⟨[], by simp [explore, hp]⟩
  | succ limit ih =>
      rcases a with ⟨pending, known⟩
      cases pending with
      | nil => exact ⟨[], rfl⟩
      | cons choices rest =>
          obtain ⟨d, hd, hledger⟩ := hrun choices
          have hproper : ∀ b ∈ choices.branches d.ledger, b.Proper rules := fun b hb =>
            (ha.proper choices (ha.pending choices List.mem_cons_self)).branchesFrom hledger hb
          have hnext := ha.drop_first.enlistAll hproper
          have hbalance := (Agenda.extends_enlistAll ⟨rest, known⟩
            (choices.branches d.ledger)).balance
          simp only [List.length_cons] at hlimit hbalance
          obtain ⟨ds, hds⟩ := ih _ hnext (by omega)
          exact ⟨d :: ds, by simp [explore, hd, hds, Except.map]⟩

theorem all_ok (hrun : run.Names rules) : ∃ ds, run.all rules = .ok ds := by
  apply explore_ok hrun _ _ (Agenda.valid_start rules)
  simp [Agenda.start]

-- The search without a limit: as long as choices are pending, a run with the first of them.
inductive Explores (run : Run) : Agenda → List Derivation → Prop
  | done (known : List Choices) : Explores run ⟨[], known⟩ []
  | turn {choices : Choices} {rest known : List Choices} {d : Derivation}
      {later : List Derivation} (hd : run choices = .done d)
      (hlater : Explores run (Agenda.enlistAll ⟨rest, known⟩ (choices.branches d.ledger)) later) :
      Explores run ⟨choices :: rest, known⟩ (d :: later)

theorem explores_of_explore {limit : Nat} {a : Agenda} {ds : List Derivation}
    (h : run.explore limit a = .ok ds) : run.Explores a ds := by
  induction limit generalizing a ds with
  | zero =>
      rcases a with ⟨_ | ⟨choices, rest⟩, known⟩
      · cases h
        exact .done known
      · cases h
  | succ limit ih =>
      rcases a with ⟨_ | ⟨choices, rest⟩, known⟩
      · cases h
        exact .done known
      · rcases hd : run choices with d | ⟨fault, d⟩
        · rcases hl : run.explore limit
              (Agenda.enlistAll ⟨rest, known⟩ (choices.branches d.ledger)) with fault | later
          · simp only [explore, hd, hl] at h
            cases h
          · simp only [explore, hd, hl] at h
            cases h
            exact .turn hd (ih hl)
        · simp only [explore, hd] at h
          cases h

theorem Explores.sound {a : Agenda} {ds : List Derivation} (h : run.Explores a ds) :
    ∀ d ∈ ds, ∃ choices, run choices = .done d := by
  induction h with
  | done known => simp
  | @turn choices rest known d later hd _ ih =>
      exact List.forall_mem_cons.mpr ⟨⟨choices, hd⟩, ih⟩

-- The search sees of a run its ledger only.
theorem Explores.of_ledgers (other : Run)
    (h : ∀ choices d, run choices = .done d → ∃ e, other choices = .done e ∧ e.ledger = d.ledger)
    {a : Agenda} {ds : List Derivation} (hds : run.Explores a ds) :
    ∃ es, other.Explores a es ∧ es.map (·.ledger) = ds.map (·.ledger) := by
  induction hds with
  | done known => exact ⟨[], .done known, rfl⟩
  | @turn choices rest known d later hd _ ih =>
      obtain ⟨e, he, hledger⟩ := h choices d hd
      obtain ⟨es, hes, hledgers⟩ := ih
      exact ⟨e :: es, .turn he (hledger ▸ hes), by rw [List.map_cons, hledger, hledgers]; rfl⟩

-- Choices that have been run, with all branches of the run known.
def Settled (run : Run) (ds : List Derivation) (known : List Choices) (choices : Choices) :
    Prop :=
  ∃ d ∈ ds, run choices = .done d ∧
    ∀ b ∈ choices.branches d.ledger, ∃ k ∈ known, b.agreesWith k = true

theorem Settled.mono {ds more : List Derivation} {known wider : List Choices}
    {choices : Choices} (h : run.Settled ds known choices) (hds : ∀ d ∈ ds, d ∈ more)
    (hknown : ∀ c ∈ known, c ∈ wider) : run.Settled more wider choices := by
  obtain ⟨d, hd, hrun, hb⟩ := h
  exact ⟨d, hds d hd, hrun, fun b hm => (hb b hm).imp fun k hk => ⟨hknown k hk.1, hk.2⟩⟩

-- In the end everything known is settled. `earlier` are the runs made before.
theorem Explores.settles (hrun : run.Names rules) {a : Agenda} {ds : List Derivation}
    (h : run.Explores a ds) (earlier : List Derivation) (hvalid : a.Valid rules)
    (ha : ∀ c ∈ a.known, c ∈ a.pending ∨ run.Settled earlier a.known c) :
    ∃ known, (∀ c ∈ known, c.Proper rules) ∧ (∀ c ∈ a.known, c ∈ known) ∧
      ∀ c ∈ known, run.Settled (earlier ++ ds) known c := by
  induction h generalizing earlier with
  | done known =>
      refine ⟨known, hvalid.proper, fun _ hc => hc, fun c hc => ?_⟩
      have hsettled := (ha c hc).resolve_left List.not_mem_nil
      exact hsettled.mono (fun d hd => List.mem_append_left _ hd) fun _ hk => hk
  | @turn choices rest known d later hd _ ih =>
      have hext := Agenda.extends_enlistAll ⟨rest, known⟩ (choices.branches d.ledger)
      have hledger : ∀ x ∈ d.ledger, x.rule ∈ rules := by
        obtain ⟨e, he, hx⟩ := hrun choices
        obtain rfl : d = e := by simpa [hd] using he
        exact hx
      have hproper : ∀ b ∈ choices.branches d.ledger, b.Proper rules := fun b hb =>
        (hvalid.proper choices (hvalid.pending choices List.mem_cons_self)).branchesFrom
          hledger hb
      have hnext : ∀ c ∈ (Agenda.enlistAll ⟨rest, known⟩ (choices.branches d.ledger)).known,
          c ∈ (Agenda.enlistAll ⟨rest, known⟩ (choices.branches d.ledger)).pending ∨
            run.Settled (earlier ++ [d])
              (Agenda.enlistAll ⟨rest, known⟩ (choices.branches d.ledger)).known c := by
        intro c hc
        rcases hext.fresh c hc with hold | hnew
        · rcases ha c hold with hp | hs
          · rcases List.mem_cons.mp hp with rfl | hp
            · exact .inr ⟨d, by simp, hd, hext.covers⟩
            · exact .inl (hext.pending c hp)
          · exact .inr (hs.mono (fun e he => List.mem_append_left _ he) hext.known)
        · exact .inl hnew
      obtain ⟨final, hfp, hfinal, hsettled⟩ :=
        ih (earlier ++ [d]) (hvalid.drop_first.enlistAll hproper) hnext
      refine ⟨final, hfp, fun c hc => hfinal c (hext.known c hc), ?_⟩
      rwa [List.append_assoc] at hsettled

theorem all_settles (hrun : run.Names rules) {ds : List Derivation}
    (h : run.all rules = .ok ds) :
    ∃ known, (∀ c ∈ known, c.Proper rules) ∧ [] ∈ known ∧
      ∀ c ∈ known, run.Settled ds known c := by
  obtain ⟨known, hproper, hstart, hsettled⟩ :=
    (explores_of_explore h).settles hrun [] (Agenda.valid_start rules) fun c hc => .inl hc
  exact ⟨known, hproper, hstart [] (by simp [Agenda.start]), hsettled⟩

-- The first run is the one without any choice made.
theorem all_head {ds : List Derivation} (h : run.all rules = .ok ds) :
    ∃ d later, ds = d :: later ∧ run [] = .done d := by
  cases explores_of_explore h with
  | turn hd _ => exact ⟨_, _, rfl, hd⟩

end Run

end Vyakarana
