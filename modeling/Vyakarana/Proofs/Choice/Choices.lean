import Vyakarana.Choice.Agenda
import Mathlib.Data.Fintype.BigOperators
import Mathlib.Data.Fintype.Option
import Mathlib.Data.Fintype.Pi

/-!
Choices as partial functions from rules to permissions, and the choices that a run leaves
to be tried.
-/

namespace Vyakarana

instance : Fintype Permission where
  elems := {.allow, .ignore}
  complete p := by cases p <;> decide

namespace Choices

@[simp] theorem fixes_nil (rule : Rule) : fixes [] rule = false := rfl

theorem permits_of_not_fixes {choices : Choices} {rule : Rule}
    (h : choices.fixes rule = false) : choices.permits rule = true := by
  have hn : choices.lookup rule = none := by simpa [fixes] using h
  simp [permits, hn]

theorem lookup_filter_ne {choices : Choices} {rule other : Rule} (h : other ≠ rule) :
    (choices.filter (·.1 != rule)).lookup other = choices.lookup other := by
  induction choices with
  | nil => rfl
  | cons entry rest ih =>
      rcases entry with ⟨r, permission⟩
      by_cases he : r = rule
      · subst he
        have hne : (other == r) = false := by simpa using h
        simp [List.lookup_cons, hne, ih]
      · simp [he, ih, List.lookup_cons]

theorem lookup_fix_self (choices : Choices) (rule : Rule) (permission : Permission) :
    (choices.fix rule permission).lookup rule = some permission := by
  have hn : (choices.filter (·.1 != rule)).lookup rule = none := by
    simp only [List.lookup_eq_none_iff, List.mem_filter]
    rintro entry ⟨-, he⟩
    simpa using Ne.symm (by simpa using he : entry.1 ≠ rule)
  simp [fix, List.lookup_append, hn]

theorem lookup_fix_ne (choices : Choices) {rule other : Rule} (permission : Permission)
    (h : other ≠ rule) : (choices.fix rule permission).lookup other = choices.lookup other := by
  have hne : (other == rule) = false := by simpa using h
  simp [fix, List.lookup_append, lookup_filter_ne h, List.lookup_cons, hne]

theorem lookup_fixIfOpen_self (choices : Choices) (rule : Rule) (permission : Permission) :
    (choices.fixIfOpen rule permission).lookup rule =
      some ((choices.lookup rule).getD permission) := by
  unfold fixIfOpen fixes
  cases hl : choices.lookup rule <;> simp [hl, List.lookup_append]

theorem lookup_fixIfOpen_ne (choices : Choices) {rule other : Rule} (permission : Permission)
    (h : other ≠ rule) :
    (choices.fixIfOpen rule permission).lookup other = choices.lookup other := by
  have hne : (other == rule) = false := by simpa using h
  unfold fixIfOpen
  split
  · rfl
  · simp [List.lookup_append, List.lookup_cons, hne]

-- Choices whose entries are all for different rules, each of them one of `rules`.
structure Proper (rules : List Rule) (choices : Choices) : Prop where
  nodup : (choices.map Prod.fst).Nodup
  within : ∀ rule, choices.fixes rule → rule ∈ rules

theorem proper_nil (rules : List Rule) : Proper rules [] :=
  ⟨List.nodup_nil, by simp⟩

theorem Proper.fixIfOpen {rules : List Rule} {choices : Choices} {rule : Rule}
    (hc : Proper rules choices) (hr : rule ∈ rules) (permission : Permission) :
    Proper rules (choices.fixIfOpen rule permission) := by
  unfold Choices.fixIfOpen
  split
  · exact hc
  · rename_i hf
    refine ⟨?_, fun other ho => ?_⟩
    · have hnot : rule ∉ choices.map Prod.fst := by
        simp only [fixes, List.lookup_isSome_iff] at hf
        simp only [List.mem_map, not_exists, not_and]
        intro entry hm he
        exact hf ⟨entry, hm, by simp [he]⟩
      simp only [List.map_append, List.map_cons, List.map_nil]
      exact List.Nodup.append hc.nodup (List.nodup_singleton _) (by simpa using hnot)
    · by_cases h : other = rule
      · exact h ▸ hr
      · have hne : (other == rule) = false := by simpa using h
        apply hc.within
        simpa [fixes, List.lookup_append, List.lookup_cons, hne] using ho

theorem Proper.fix {rules : List Rule} {choices : Choices} {rule : Rule}
    (hc : Proper rules choices) (hr : rule ∈ rules) (permission : Permission) :
    Proper rules (choices.fix rule permission) := by
  refine ⟨?_, fun other ho => ?_⟩
  · unfold Choices.fix
    simp only [List.map_append, List.map_cons, List.map_nil]
    refine List.Nodup.append ?_ (List.nodup_singleton _) ?_
    · exact hc.nodup.sublist (List.filter_sublist.map Prod.fst)
    · simp
  · by_cases h : other = rule
    · exact h ▸ hr
    · apply hc.within
      simpa [fixes, lookup_fix_ne choices permission h] using ho

theorem Proper.branchesFrom {rules : List Rule} {choices made branch : Choices}
    {ledger : List Decision} (hm : Proper rules made) (hl : ∀ x ∈ ledger, x.rule ∈ rules)
    (hb : branch ∈ choices.branchesFrom made ledger) : Proper rules branch := by
  induction ledger generalizing made with
  | nil => simp [Choices.branchesFrom] at hb
  | cons x rest ih =>
      have hx : x.rule ∈ rules := hl x List.mem_cons_self
      have hrest := ih (hm.fixIfOpen hx x.verdict.permission)
        fun y hy => hl y (List.mem_cons_of_mem _ hy)
      unfold Choices.branchesFrom at hb
      split at hb
      · exact hrest hb
      · rcases List.mem_cons.mp hb with rfl | hb
        · exact hm.fix hx _
        · exact hrest hb

-- With different rules throughout, the lookups tell which entries there are.
theorem Proper.lookup_eq_some_iff {rules : List Rule} {choices : Choices}
    (hc : Proper rules choices) (rule : Rule) (permission : Permission) :
    choices.lookup rule = some permission ↔ (rule, permission) ∈ choices := by
  have hn := hc.nodup
  clear hc
  induction choices with
  | nil => simp
  | cons entry rest ih =>
      rcases entry with ⟨r, p⟩
      simp only [List.map_cons, List.nodup_cons] at hn
      by_cases h : rule = r
      · subst h
        have hnot : (rule, permission) ∉ rest := fun hm =>
          hn.1 (List.mem_map.mpr ⟨_, hm, rfl⟩)
        simp [hnot, eq_comm]
      · have hne : (rule == r) = false := by simpa using h
        simp [List.lookup_cons, hne, ih hn.2, h]

theorem agreesWith_self (choices : Choices) : choices.agreesWith choices = true := by
  simp [agreesWith]

theorem agreesWith_iff_mem {a b : Choices} :
    a.agreesWith b = true ↔ ∀ entry, entry ∈ a ↔ entry ∈ b := by
  simp only [agreesWith, Bool.and_eq_true, List.all_eq_true, List.contains_iff_mem]
  exact ⟨fun h entry => ⟨h.1 entry, h.2 entry⟩, fun h => ⟨fun e => (h e).mp, fun e => (h e).mpr⟩⟩

theorem agreesWith_iff_lookup {rules : List Rule} {a b : Choices} (ha : Proper rules a)
    (hb : Proper rules b) :
    a.agreesWith b = true ↔ ∀ rule, a.lookup rule = b.lookup rule := by
  rw [agreesWith_iff_mem]
  constructor
  · intro h rule
    apply Option.ext
    intro permission
    rw [ha.lookup_eq_some_iff, hb.lookup_eq_some_iff]
    exact h (rule, permission)
  · rintro h ⟨rule, permission⟩
    rw [← ha.lookup_eq_some_iff, ← hb.lookup_eq_some_iff, h]

-- Each of n rules is open, allowed or ignored, so no more than 3^n choices differ.
theorem length_le_of_pairwise_disagree {rules : List Rule} {known : List Choices}
    (hp : ∀ c ∈ known, Proper rules c)
    (hd : known.Pairwise fun a b => a.agreesWith b = false) :
    known.length ≤ 3 ^ rules.eraseDups.length := by
  let table (c : Choices) : rules.toFinset → Option Permission := fun rule => c.lookup rule.1
  have hinj : ∀ a ∈ known, ∀ b ∈ known, table a = table b → a.agreesWith b = true := by
    intro a ha b hb h
    refine (agreesWith_iff_lookup (hp a ha) (hp b hb)).mpr fun rule => ?_
    by_cases hr : rule ∈ rules
    · exact congrFun h ⟨rule, List.mem_toFinset.mpr hr⟩
    · have hopen : ∀ c ∈ known, c.lookup rule = none := fun c hc => by
        by_contra hs
        exact hr ((hp c hc).within rule (by simpa [fixes, Option.isSome_iff_ne_none] using hs))
      rw [hopen a ha, hopen b hb]
  have hnodup : (known.map table).Nodup := by
    rw [List.Nodup, List.pairwise_map]
    refine hd.imp_of_mem fun {a b} ha hb hab h => ?_
    simp [hinj a ha b hb h] at hab
  have hcard : rules.toFinset.card ≤ rules.eraseDups.length := by
    have he : rules.toFinset = rules.eraseDups.toFinset := by
      ext rule
      simp
    exact he ▸ List.toFinset_card_le _
  calc
    known.length = (known.map table).length := (List.length_map _).symm
    _ ≤ Fintype.card (rules.toFinset → Option Permission) := hnodup.length_le_card
    _ = 3 ^ rules.toFinset.card := by
      have hthree : Fintype.card (Option Permission) = 3 := rfl
      rw [Fintype.card_fun, hthree, Fintype.card_coe]
    _ ≤ 3 ^ rules.eraseDups.length := Nat.pow_le_pow_right (by decide) hcard

-- How the choices take a rule, whether or not they name it.
def taken (choices : Choices) (rule : Rule) : Permission := (choices.lookup rule).getD .allow

theorem taken_eq_iff_permits_eq (a b : Choices) (rule : Rule) :
    a.taken rule = b.taken rule ↔ a.permits rule = b.permits rule := by
  have hp (c : Choices) : c.permits rule = (c.taken rule == .allow) := rfl
  rw [hp, hp]
  cases a.taken rule <;> cases b.taken rule <;> decide

-- What the ledger tells of an optional rule.
def decide (choices : Choices) (rule : Rule) : Decision :=
  ⟨rule, if choices.permits rule then .accepted else .declined⟩

-- Choices that leave each rule open or take it as the target does.
def CompatibleWith (choices target : Choices) : Prop :=
  ∀ rule, choices.fixes rule = true → choices.taken rule = target.taken rule

theorem compatibleWith_nil (target : Choices) : CompatibleWith [] target := by
  intro rule h
  simp at h

theorem taken_fix_self (choices : Choices) (rule : Rule) (permission : Permission) :
    (choices.fix rule permission).taken rule = permission := by
  simp [taken, lookup_fix_self]

theorem taken_fix_ne (choices : Choices) {rule other : Rule} (permission : Permission)
    (h : other ≠ rule) : (choices.fix rule permission).taken other = choices.taken other := by
  simp [taken, lookup_fix_ne choices permission h]

theorem fixes_fix (choices : Choices) (rule : Rule) (permission : Permission) (other : Rule) :
    (choices.fix rule permission).fixes other = (other == rule || choices.fixes other) := by
  by_cases h : other = rule
  · simp [h, fixes, lookup_fix_self]
  · simp [h, fixes, lookup_fix_ne choices permission h]

theorem fixes_fixIfOpen (choices : Choices) (rule : Rule) (permission : Permission)
    (other : Rule) :
    (choices.fixIfOpen rule permission).fixes other = (other == rule || choices.fixes other) := by
  by_cases h : other = rule
  · simp [h, fixes, lookup_fixIfOpen_self]
  · simp [h, fixes, lookup_fixIfOpen_ne choices permission h]

theorem fixIfOpen_of_fixes {choices : Choices} {rule : Rule} (h : choices.fixes rule = true)
    (permission : Permission) : choices.fixIfOpen rule permission = choices := by
  simp [fixIfOpen, h]

theorem CompatibleWith.fix {choices target : Choices} {rule : Rule} {permission : Permission}
    (hc : choices.CompatibleWith target) (hp : permission = target.taken rule) :
    (choices.fix rule permission).CompatibleWith target := by
  intro other ho
  by_cases h : other = rule
  · rw [h, taken_fix_self, hp]
  · rw [taken_fix_ne choices permission h]
    apply hc
    simpa [fixes_fix, h] using ho

theorem CompatibleWith.fixIfOpen {choices target : Choices} {rule : Rule}
    {permission : Permission} (hc : choices.CompatibleWith target)
    (hp : permission = target.taken rule) :
    (choices.fixIfOpen rule permission).CompatibleWith target := by
  by_cases hf : choices.fixes rule = true
  · rwa [fixIfOpen_of_fixes hf]
  · intro other ho
    by_cases h : other = rule
    · have hn : choices.lookup rule = none := Option.not_isSome_iff_eq_none.mp hf
      simp [h, taken, lookup_fixIfOpen_self, hn, hp]
    · have hl := lookup_fixIfOpen_ne choices permission h
      have hk := hc other (by simpa [fixes_fixIfOpen, h] using ho)
      simpa only [taken, hl] using hk

theorem reversed_eq_of_permission_ne {verdict : Verdict} {permission : Permission}
    (h : verdict.permission ≠ permission) : verdict.reversed = permission := by
  cases verdict <;> cases permission <;> simp_all [Verdict.permission, Verdict.reversed]

-- A run that took some open rule otherwise than the target leaves a branch that is
-- compatible with the target: the one at the first such decision, since those before it
-- are pinned as they were found.
theorem exists_branch_towards {choices made target : Choices} {ledger : List Decision}
    (hmade : made.CompatibleWith target)
    (hfixed : ∀ rule, choices.fixes rule = true → made.fixes rule = true)
    (hx : ∃ x ∈ ledger, choices.fixes x.rule = false ∧
      x.verdict.permission ≠ target.taken x.rule) :
    ∃ branch ∈ choices.branchesFrom made ledger, branch.CompatibleWith target ∧
      (∀ rule, made.fixes rule = true → branch.fixes rule = true) ∧
      ∃ x ∈ ledger, choices.fixes x.rule = false ∧ branch.fixes x.rule = true := by
  induction ledger generalizing made with
  | nil => simp at hx
  | cons x rest ih =>
      unfold branchesFrom
      by_cases hopen : choices.fixes x.rule = true
      · have hnext := fixIfOpen_of_fixes (hfixed _ hopen) x.verdict.permission
        rw [if_pos hopen, hnext]
        have hrest : ∃ y ∈ rest, choices.fixes y.rule = false ∧
            y.verdict.permission ≠ target.taken y.rule := by
          obtain ⟨y, hy, hf, hv⟩ := hx
          rcases List.mem_cons.mp hy with rfl | hy
          · simp [hopen] at hf
          · exact ⟨y, hy, hf, hv⟩
        obtain ⟨branch, hb, hc, hk, y, hy, hf, hv⟩ := ih hmade hfixed hrest
        exact ⟨branch, hb, hc, hk, y, List.mem_cons_of_mem _ hy, hf, hv⟩
      · rw [if_neg hopen]
        by_cases hsame : x.verdict.permission = target.taken x.rule
        · have hrest : ∃ y ∈ rest, choices.fixes y.rule = false ∧
              y.verdict.permission ≠ target.taken y.rule := by
            obtain ⟨y, hy, hf, hv⟩ := hx
            rcases List.mem_cons.mp hy with rfl | hy
            · exact absurd hsame hv
            · exact ⟨y, hy, hf, hv⟩
          have hmono (rule : Rule) (h : made.fixes rule = true) :
              (made.fixIfOpen x.rule x.verdict.permission).fixes rule = true := by
            simp [fixes_fixIfOpen, h]
          obtain ⟨branch, hb, hc, hk, y, hy, hf, hv⟩ :=
            ih (hmade.fixIfOpen hsame) (fun rule h => hmono rule (hfixed rule h)) hrest
          exact ⟨branch, List.mem_cons_of_mem _ hb, hc, fun rule h => hk rule (hmono rule h),
            y, List.mem_cons_of_mem _ hy, hf, hv⟩
        · have hturned := reversed_eq_of_permission_ne hsame
          refine ⟨_, List.mem_cons_self, hmade.fix hturned, fun rule h => ?_,
            x, List.mem_cons_self, by simpa using hopen, ?_⟩
          · simp [fixes_fix, h]
          · simp [fixes_fix]

end Choices

end Vyakarana
