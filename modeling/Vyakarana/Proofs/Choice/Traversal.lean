import Vyakarana.Proofs.Choice.Completeness

/-!
The search visits the leaves of the decision tree from left to right.

The choices of a run pin the decisions on the way to a node of the tree, and the run goes on
from there to the leftmost leaf below. What it leaves to be tried are the declined branches
of the nodes on that last stretch, its spine, with the deepest one on top.
-/

namespace Vyakarana

-- The choices that lead along a way.
def pinned (way : List Decision) : Choices := way.map fun x => (x.rule, x.verdict.permission)

theorem permission_injective {a b : Verdict} (h : a.permission = b.permission) : a = b := by
  cases a <;> cases b <;> simp_all [Verdict.permission]

theorem fixes_pinned (way : List Decision) (rule : Rule) :
    (pinned way).fixes rule = true ↔ rule ∈ way.map (·.rule) := by
  simp only [Choices.fixes, List.lookup_isSome_iff, pinned, List.mem_map]
  constructor
  · rintro ⟨entry, ⟨x, hx, rfl⟩, he⟩
    exact ⟨x, hx, (beq_iff_eq.mp he).symm⟩
  · rintro ⟨x, hx, rfl⟩
    exact ⟨_, ⟨x, hx, rfl⟩, by simp⟩

theorem permits_pinned {way : List Decision} (hn : (way.map (·.rule)).Nodup) {x : Decision}
    (hx : x ∈ way) : (pinned way).permits x.rule = (x.verdict == .accepted) := by
  have hproper : (pinned way).Proper (way.map (·.rule)) :=
    ⟨by simpa [pinned, Function.comp_def] using hn, fun rule h => (fixes_pinned way rule).mp h⟩
  have hl : (pinned way).lookup x.rule = some x.verdict.permission :=
    (hproper.lookup_eq_some_iff _ _).mpr (List.mem_map_of_mem hx)
  rw [Choices.permits, hl]
  cases x.verdict <;> rfl

theorem pinned_append (way more : List Decision) : pinned (way ++ more) = pinned way ++ pinned more :=
  List.map_append

-- Off the way nothing is pinned, so fixing a rule lengthens the way.
theorem fix_pinned {way : List Decision} {rule : Rule} (h : rule ∉ way.map (·.rule))
    (permission : Permission) :
    (pinned way).fix rule permission = pinned way ++ [(rule, permission)] := by
  have hf : (pinned way).filter (·.1 != rule) = pinned way := by
    refine List.filter_eq_self.mpr fun entry he => ?_
    obtain ⟨x, hx, rfl⟩ := List.mem_map.mp he
    simpa using fun hr => h (List.mem_map.mpr ⟨x, hx, hr⟩)
  rw [Choices.fix, hf]

theorem fixIfOpen_pinned {way : List Decision} {rule : Rule} (h : rule ∉ way.map (·.rule))
    (permission : Permission) :
    (pinned way).fixIfOpen rule permission = pinned way ++ [(rule, permission)] := by
  have hf : ¬(pinned way).fixes rule = true := by rwa [fixes_pinned]
  rw [Choices.fixIfOpen, if_neg hf]

-- The decisions that the choices of the run had made before leave no branch.
theorem branchesFrom_append_of_fixed {choices made : Choices} {way rest : List Decision}
    (hmade : ∀ rule, choices.fixes rule = true → made.fixes rule = true)
    (hway : ∀ x ∈ way, choices.fixes x.rule = true) :
    choices.branchesFrom made (way ++ rest) = choices.branchesFrom made rest := by
  induction way with
  | nil => rfl
  | cons x way ih =>
      have hx : choices.fixes x.rule = true := hway x List.mem_cons_self
      rw [List.cons_append, Choices.branchesFrom, if_pos hx,
        Choices.fixIfOpen_of_fixes (hmade _ hx)]
      exact ih fun y hy => hway y (List.mem_cons_of_mem _ hy)

theorem enlistAll_of_disagree {a : Agenda} {branches : List Choices}
    (hnew : ∀ b ∈ branches, ∀ k ∈ a.known, b.agreesWith k = false)
    (hdistinct : branches.Pairwise fun b c => c.agreesWith b = false) :
    a.enlistAll branches = ⟨branches.reverse ++ a.pending, branches.reverse ++ a.known⟩ := by
  induction branches generalizing a with
  | nil => rfl
  | cons b rest ih =>
      have hb : ¬a.known.any b.agreesWith = true := by
        rw [List.any_eq_true]
        rintro ⟨k, hk, he⟩
        simp [hnew b List.mem_cons_self k hk] at he
      obtain ⟨hfirst, hrest⟩ := List.pairwise_cons.mp hdistinct
      have hnext : ∀ c ∈ rest, ∀ k ∈ (a.enlist b).known, c.agreesWith k = false := by
        intro c hc k hk
        rw [Agenda.enlist, if_neg hb] at hk
        rcases List.mem_cons.mp hk with rfl | hk
        · exact hfirst c hc
        · exact hnew c (List.mem_cons_of_mem _ hc) k hk
      have h := ih hnext hrest
      rw [Agenda.enlistAll, List.foldl_cons, ← Agenda.enlistAll, h, Agenda.enlist, if_neg hb]
      simp

namespace DecisionTree

def branch (accepted declined : DecisionTree) : Verdict → DecisionTree
  | .accepted => accepted
  | .declined => declined

-- The subtree at the end of a way.
def at? : List Decision → DecisionTree → Option DecisionTree
  | [], t => some t
  | _ :: _, .leaf _ => none
  | x :: way, .node rule accepted declined =>
    if x.rule = rule then (branch accepted declined x.verdict).at? way else none

-- The leftmost leaf, and the way to it.
def first : DecisionTree → Derivation
  | .leaf d => d
  | .node _ accepted _ => accepted.first

def firstPath : DecisionTree → List Decision
  | .leaf _ => []
  | .node rule accepted _ => ⟨rule, .accepted⟩ :: accepted.firstPath

-- The declined branches along the way to the leftmost leaf, with the ways to them.
def spine : List Decision → DecisionTree → List (List Decision × DecisionTree)
  | _, .leaf _ => []
  | way, .node rule accepted declined =>
    (way ++ [⟨rule, .declined⟩], declined) :: accepted.spine (way ++ [⟨rule, .accepted⟩])

-- The ledger of each leaf is the way to it. `way` leads to the root.
def Reports : List Decision → DecisionTree → Prop
  | way, .leaf d => d.ledger = way
  | way, .node rule accepted declined =>
    accepted.Reports (way ++ [⟨rule, .accepted⟩]) ∧ declined.Reports (way ++ [⟨rule, .declined⟩])

theorem leaves_eq_first_spine (way : List Decision) (t : DecisionTree) :
    t.leaves = t.first :: (t.spine way).reverse.flatMap (·.2.leaves) := by
  induction t generalizing way with
  | leaf d => rfl
  | node rule accepted declined iha ihd =>
      rw [leaves, iha (way ++ [⟨rule, .accepted⟩])]
      simp [first, spine]

theorem paths_ne_nil (t : DecisionTree) : t.paths ≠ [] := by
  induction t with
  | leaf d => simp [paths]
  | node rule accepted declined iha ihd => simp [paths, iha]

theorem nodup_paths (t : DecisionTree) : t.paths.Nodup := by
  induction t with
  | leaf d => exact List.nodup_singleton []
  | node rule accepted declined iha ihd =>
      have hcons (verdict : Verdict) : Function.Injective ((⟨rule, verdict⟩ : Decision) :: ·) :=
        fun _ _ h => (List.cons.inj h).2
      refine List.Nodup.append (iha.map (hcons _)) (ihd.map (hcons _)) ?_
      intro path ha hd
      obtain ⟨a, -, rfl⟩ := List.mem_map.mp ha
      obtain ⟨b, -, hb⟩ := List.mem_map.mp hd
      simp at hb

theorem firstPath_mem_paths (t : DecisionTree) : t.firstPath ∈ t.paths := by
  induction t with
  | leaf d => simp [paths, firstPath]
  | node rule accepted declined iha ihd => simp [paths, firstPath, iha]

theorem map_ledger_leaves {way : List Decision} {t : DecisionTree} (h : t.Reports way) :
    t.leaves.map (·.ledger) = t.paths.map (way ++ ·) := by
  induction t generalizing way with
  | leaf d =>
      have hd : d.ledger = way := h
      simp [leaves, paths, hd]
  | node rule accepted declined iha ihd =>
      simp only [leaves, paths, List.map_append, iha h.1, ihd h.2, List.map_map]
      simp [Function.comp_def]

theorem ledger_first {way : List Decision} {t : DecisionTree} (h : t.Reports way) :
    t.first.ledger = way ++ t.firstPath := by
  induction t generalizing way with
  | leaf d => exact h.trans (List.append_nil way).symm
  | node rule accepted declined iha ihd => simpa [first, firstPath] using iha h.1

theorem at?_cons_eq_some {x : Decision} {way : List Decision} {t s : DecisionTree}
    (h : t.at? (x :: way) = some s) :
    ∃ accepted declined, t = .node x.rule accepted declined ∧
      (branch accepted declined x.verdict).at? way = some s := by
  cases t with
  | leaf d => simp [at?] at h
  | node rule accepted declined =>
      simp only [at?, Option.ite_none_right_eq_some] at h
      obtain ⟨rfl, h⟩ := h
      exact ⟨accepted, declined, rfl, h⟩

theorem cons_mem_paths {rule : Rule} {verdict : Verdict} {accepted declined : DecisionTree}
    {path : List Decision} (h : path ∈ (branch accepted declined verdict).paths) :
    ⟨rule, verdict⟩ :: path ∈ (DecisionTree.node rule accepted declined).paths := by
  cases verdict with
  | accepted => exact List.mem_append_left _ (List.mem_map_of_mem h)
  | declined => exact List.mem_append_right _ (List.mem_map_of_mem h)

theorem append_mem_paths {way path : List Decision} {t s : DecisionTree}
    (h : t.at? way = some s) (hp : path ∈ s.paths) : way ++ path ∈ t.paths := by
  induction way generalizing t with
  | nil =>
      obtain rfl : t = s := by simpa [at?] using h
      exact hp
  | cons x way ih =>
      obtain ⟨accepted, declined, rfl, hs⟩ := at?_cons_eq_some h
      exact cons_mem_paths (ih hs)

theorem at?_append {way more : List Decision} {t s : DecisionTree} (h : t.at? way = some s) :
    t.at? (way ++ more) = s.at? more := by
  induction way generalizing t with
  | nil =>
      obtain rfl : t = s := by simpa [at?] using h
      rfl
  | cons x way ih =>
      obtain ⟨accepted, declined, rfl, hs⟩ := at?_cons_eq_some h
      simpa [at?] using ih hs

theorem reports_at? {before way : List Decision} {t s : DecisionTree} (ht : t.Reports before)
    (h : t.at? way = some s) : s.Reports (before ++ way) := by
  induction way generalizing t before with
  | nil =>
      obtain rfl : t = s := by simpa [at?] using h
      simpa using ht
  | cons x way ih =>
      obtain ⟨accepted, declined, rfl, hs⟩ := at?_cons_eq_some h
      have hx : (branch accepted declined x.verdict).Reports (before ++ [x]) := by
        rcases x with ⟨rule, _ | _⟩
        · exact ht.1
        · exact ht.2
      simpa using ih hx hs

-- Choices that permit what is accepted along the way, and refuse the rest, lead to its end.
theorem follow_at? {choices : Choices} {way : List Decision} {t s : DecisionTree}
    (h : t.at? way = some s)
    (hway : ∀ x ∈ way, choices.permits x.rule = (x.verdict == .accepted)) :
    t.follow choices = s.follow choices := by
  induction way generalizing t with
  | nil =>
      obtain rfl : t = s := by simpa [at?] using h
      rfl
  | cons x way ih =>
      obtain ⟨accepted, declined, rfl, hs⟩ := at?_cons_eq_some h
      have hx := hway x List.mem_cons_self
      rw [← ih hs fun y hy => hway y (List.mem_cons_of_mem _ hy)]
      rcases x with ⟨rule, _ | _⟩
      · have hp : choices.permits rule = true := by simpa using hx
        rw [follow, if_pos hp]
        rfl
      · have hp : ¬choices.permits rule = true := ne_true_of_eq_false hx
        rw [follow, if_neg hp]
        rfl

-- Choices that fix none of the rules ahead lead to the leftmost leaf.
theorem follow_eq_first {choices : Choices} {t : DecisionTree}
    (h : ∀ x ∈ t.firstPath, choices.fixes x.rule = false) :
    t.follow choices = t.first.withChoices choices := by
  induction t with
  | leaf d => rfl
  | node rule accepted declined iha ihd =>
      have hp := Choices.permits_of_not_fixes (h ⟨rule, .accepted⟩ List.mem_cons_self)
      rw [follow, if_pos hp]
      exact iha fun x hx => h x (List.mem_cons_of_mem _ hx)

theorem prefix_of_mem_spine {way : List Decision} {t : DecisionTree}
    {e : List Decision × DecisionTree} (h : e ∈ t.spine way) :
    way <+: e.1 ∧ way.length < e.1.length := by
  induction t generalizing way with
  | leaf d => simp [spine] at h
  | node rule accepted declined iha ihd =>
      rcases List.mem_cons.mp h with rfl | h
      · simp
      · obtain ⟨hp, hl⟩ := iha h
        rw [List.length_append] at hl
        exact ⟨(List.prefix_append _ _).trans hp, by omega⟩

theorem at?_of_mem_spine {way : List Decision} {root t : DecisionTree}
    {e : List Decision × DecisionTree} (ht : root.at? way = some t) (h : e ∈ t.spine way) :
    root.at? e.1 = some e.2 := by
  induction t generalizing way with
  | leaf d => simp [spine] at h
  | node rule accepted declined iha ihd =>
      rcases List.mem_cons.mp h with rfl | h
      · rw [at?_append ht]
        simp [at?, branch]
      · refine iha ?_ h
        rw [at?_append ht]
        simp [at?, branch]

theorem not_prefix_of_other_verdict {way long : List Decision} {rule : Rule}
    (ha : way ++ [⟨rule, .accepted⟩] <+: long) : ¬way ++ [⟨rule, .declined⟩] <+: long := by
  intro hd
  have h := List.prefix_of_prefix_length_le ha hd (by simp)
  simpa using h.eq_of_length (by simp)

-- The branches of a spine part at different nodes, so none lies below another.
theorem spine_antichain {way : List Decision} {t : DecisionTree}
    {e f : List Decision × DecisionTree} (he : e ∈ t.spine way) (hf : f ∈ t.spine way)
    (h : e.1 <+: f.1) : e.1 = f.1 := by
  induction t generalizing way with
  | leaf d => simp [spine] at he
  | node rule accepted declined iha ihd =>
      rcases List.mem_cons.mp he with rfl | he <;> rcases List.mem_cons.mp hf with rfl | hf
      · rfl
      · exact absurd h (not_prefix_of_other_verdict (prefix_of_mem_spine hf).1)
      · exact absurd List.prefix_rfl
          (not_prefix_of_other_verdict ((prefix_of_mem_spine he).1.trans h))
      · exact iha he hf

theorem nodup_spine (way : List Decision) (t : DecisionTree) :
    ((t.spine way).map Prod.fst).Nodup := by
  induction t generalizing way with
  | leaf d => exact List.nodup_nil
  | node rule accepted declined iha ihd =>
      refine List.nodup_cons.mpr ⟨fun hm => ?_, iha _⟩
      obtain ⟨f, hf, he⟩ := List.mem_map.mp hm
      exact not_prefix_of_other_verdict (prefix_of_mem_spine hf).1 (he ▸ List.prefix_rfl)

theorem branchesFrom_firstPath {choices : Choices} {way : List Decision} {t : DecisionTree}
    (hn : ((way ++ t.firstPath).map (·.rule)).Nodup)
    (hopen : ∀ x ∈ t.firstPath, choices.fixes x.rule = false) :
    choices.branchesFrom (pinned way) t.firstPath = (t.spine way).map fun e => pinned e.1 := by
  induction t generalizing way with
  | leaf d => rfl
  | node rule accepted declined iha ihd =>
      have hrule : rule ∉ way.map (·.rule) := by
        simp only [firstPath, List.map_append, List.map_cons] at hn
        exact fun hm => (List.disjoint_of_nodup_append hn) hm List.mem_cons_self
      have hf : ¬choices.fixes rule = true := by
        simpa using hopen ⟨rule, .accepted⟩ List.mem_cons_self
      rw [firstPath, Choices.branchesFrom, if_neg hf, fix_pinned hrule, fixIfOpen_pinned hrule]
      have hrest : ((way ++ [(⟨rule, .accepted⟩ : Decision)] ++ accepted.firstPath).map
          (·.rule)).Nodup := by
        simpa [firstPath] using hn
      have hstep := iha hrest fun x hx => hopen x (List.mem_cons_of_mem _ hx)
      rw [pinned_append] at hstep
      simp only [spine, List.map_cons, pinned_append]
      exact congrArg _ hstep

theorem rule_notMem_of_at? {x : Decision} {way : List Decision} {t s : DecisionTree}
    (ht : ∀ path ∈ t.paths, (path.map (·.rule)).Nodup) (h : t.at? (x :: way) = some s) :
    x.rule ∉ way.map (·.rule) := by
  obtain ⟨path, hp⟩ := List.exists_mem_of_ne_nil _ s.paths_ne_nil
  have hn := ht _ (append_mem_paths h hp)
  simp only [List.cons_append, List.map_cons, List.map_append, List.nodup_cons] at hn
  exact fun hm => hn.1 (List.mem_append_left _ hm)

-- A decision that the way behind it does not repeat can be told from the choices pinned.
theorem eq_of_mem_pinned {x y : Decision} {other : List Decision} (hrule : x.rule = y.rule)
    (hy : y.rule ∉ other.map (·.rule))
    (h : (x.rule, x.verdict.permission) ∈ pinned (y :: other)) : x = y := by
  rcases List.mem_cons.mp h with he | hm
  · have hverdict := permission_injective (congrArg Prod.snd he)
    rcases x with ⟨r, v⟩
    rcases y with ⟨r', v'⟩
    exact congrArg₂ Decision.mk hrule hverdict
  · obtain ⟨z, hz, he⟩ := List.mem_map.mp hm
    have hzr : z.rule = y.rule := (congrArg Prod.fst he).trans hrule
    exact absurd (List.mem_map.mpr ⟨z, hz, hzr⟩) hy

theorem pinned_subset_of_cons {x : Decision} {way other : List Decision}
    (hx : x.rule ∉ way.map (·.rule)) (h : ∀ entry ∈ pinned (x :: way), entry ∈ pinned (x :: other)) :
    ∀ entry ∈ pinned way, entry ∈ pinned other := by
  intro entry hm
  refine (List.mem_cons.mp (h entry (List.mem_cons_of_mem _ hm))).resolve_left fun heq => hx ?_
  obtain ⟨z, hz, hze⟩ := List.mem_map.mp hm
  exact List.mem_map.mpr ⟨z, hz, congrArg Prod.fst (hze.trans heq)⟩

-- Ways through a tree without repeated rules pin different choices.
theorem eq_of_agreesWith {way other : List Decision} {t s r : DecisionTree}
    (ht : ∀ path ∈ t.paths, (path.map (·.rule)).Nodup) (hs : t.at? way = some s)
    (hr : t.at? other = some r)
    (h : ∀ entry, entry ∈ pinned way ↔ entry ∈ pinned other) : way = other := by
  induction way generalizing t other with
  | nil =>
      cases other with
      | nil => rfl
      | cons y other => simpa [pinned] using (h (y.rule, y.verdict.permission)).mpr
  | cons x way ih =>
      cases other with
      | nil => simpa [pinned] using (h (x.rule, x.verdict.permission)).mp
      | cons y other =>
          have hx := rule_notMem_of_at? ht hs
          have hy := rule_notMem_of_at? ht hr
          obtain ⟨accepted, declined, rfl, hs'⟩ := at?_cons_eq_some hs
          obtain ⟨accepted', declined', heq, hr'⟩ := at?_cons_eq_some hr
          obtain ⟨hrule, rfl, rfl⟩ := by simpa using heq
          obtain rfl : x = y := eq_of_mem_pinned hrule hy ((h _).mp List.mem_cons_self)
          have htail : ∀ entry, entry ∈ pinned way ↔ entry ∈ pinned other := fun entry =>
            ⟨pinned_subset_of_cons hx (fun e => (h e).mp) entry,
              pinned_subset_of_cons hy (fun e => (h e).mpr) entry⟩
          have hsub : ∀ path ∈ (branch accepted declined x.verdict).paths,
              (path.map (·.rule)).Nodup :=
            fun path hp => (List.nodup_cons.mp (ht _ (cons_mem_paths hp))).2
          rw [ih hsub hs' hr' htail]

-- The search in the middle of its work: what is to be tried are subtrees with the ways to
-- them, what is known are ways, and nothing below a pending subtree is known.
structure Underway (root : DecisionTree) (stack : List (List Decision × DecisionTree))
    (known : List (List Decision)) : Prop where
  located : ∀ e ∈ stack, root.at? e.1 = some e.2
  real : ∀ way ∈ known, ∃ s, root.at? way = some s
  listed : ∀ e ∈ stack, e.1 ∈ known
  distinct : (stack.map Prod.fst).Nodup
  untouched : ∀ e ∈ stack, ∀ way ∈ known, e.1 <+: way → way = e.1

theorem underway_start (root : DecisionTree) : root.Underway [([], root)] [[]] where
  located := by simp [at?]
  real := by simpa using ⟨root, rfl⟩
  listed := by simp
  distinct := by simp
  untouched := by simp

variable {root s : DecisionTree} {way : List Decision} {known : List (List Decision)}
  {stack : List (List Decision × DecisionTree)}

-- The branches of the subtree on top are new.
theorem Underway.fresh (h : root.Underway ((way, s) :: stack) known)
    {e : List Decision × DecisionTree} (he : e ∈ s.spine way) : e.1 ∉ known := by
  intro hk
  obtain ⟨hp, hl⟩ := prefix_of_mem_spine he
  have hsame := h.untouched (way, s) List.mem_cons_self e.1 hk hp
  simp [hsame] at hl

theorem Underway.advance (h : root.Underway ((way, s) :: stack) known) :
    root.Underway ((s.spine way).reverse ++ stack)
      ((s.spine way).reverse.map Prod.fst ++ known) := by
  have hs := h.located (way, s) List.mem_cons_self
  have hway := h.listed (way, s) List.mem_cons_self
  have hnot : way ∉ stack.map Prod.fst := (List.nodup_cons.mp h.distinct).1
  refine ⟨?_, ?_, ?_, ?_, ?_⟩
  · intro e he
    rcases List.mem_append.mp he with he | he
    · exact at?_of_mem_spine hs (List.mem_reverse.mp he)
    · exact h.located e (List.mem_cons_of_mem _ he)
  · intro w hw
    rcases List.mem_append.mp hw with hw | hw
    · obtain ⟨e, he, rfl⟩ := List.mem_map.mp hw
      exact ⟨e.2, at?_of_mem_spine hs (List.mem_reverse.mp he)⟩
    · exact h.real w hw
  · intro e he
    rcases List.mem_append.mp he with he | he
    · exact List.mem_append_left _ (List.mem_map_of_mem he)
    · exact List.mem_append_right _ (h.listed e (List.mem_cons_of_mem _ he))
  · rw [List.map_append]
    refine List.Nodup.append ?_ (List.nodup_cons.mp h.distinct).2 ?_
    · rw [List.map_reverse, List.nodup_reverse]
      exact nodup_spine way s
    · intro w hw hstack
      obtain ⟨e, he, rfl⟩ := List.mem_map.mp hw
      obtain ⟨f, hf, hfe⟩ := List.mem_map.mp hstack
      exact h.fresh (List.mem_reverse.mp he) (hfe ▸ h.listed f (List.mem_cons_of_mem _ hf))
  · intro e he w hw hp
    rcases List.mem_append.mp he with he | he <;> rcases List.mem_append.mp hw with hw | hw
    · obtain ⟨f, hf, rfl⟩ := List.mem_map.mp hw
      exact (spine_antichain (List.mem_reverse.mp he) (List.mem_reverse.mp hf) hp).symm
    · have hl := prefix_of_mem_spine (List.mem_reverse.mp he)
      have hsame := h.untouched (way, s) List.mem_cons_self w hw (hl.1.trans hp)
      have hlen := hp.length_le
      simp only [hsame] at hlen
      omega
    · obtain ⟨f, hf, rfl⟩ := List.mem_map.mp hw
      have hl := prefix_of_mem_spine (List.mem_reverse.mp hf)
      have hee := h.listed e (List.mem_cons_of_mem _ he)
      have hne : e.1 ≠ way := fun heq => hnot (List.mem_map.mpr ⟨e, he, heq⟩)
      rcases List.prefix_or_prefix_of_prefix hp hl.1 with hew | hwe
      · exact absurd (h.untouched e (List.mem_cons_of_mem _ he) way hway hew).symm hne
      · exact absurd (h.untouched (way, s) List.mem_cons_self e.1 hee hwe) hne
    · exact h.untouched e (List.mem_cons_of_mem _ he) w hw hp

theorem disagree_of_ne {other : List Decision} {r : DecisionTree}
    (hn : ∀ path ∈ root.paths, (path.map (·.rule)).Nodup) (hs : root.at? way = some s)
    (hr : root.at? other = some r) (hne : way ≠ other) :
    (pinned way).agreesWith (pinned other) = false := by
  refine eq_false_of_ne_true fun h => hne ?_
  exact eq_of_agreesWith hn hs hr (Choices.agreesWith_iff_mem.mp h)

-- What a run with the choices on the way to a subtree finds, and what it leaves to be tried.
theorem follow_pinned (hn : ∀ path ∈ root.paths, (path.map (·.rule)).Nodup)
    (hledger : root.Reports []) (hs : root.at? way = some s) :
    root.follow (pinned way) = s.first.withChoices (pinned way) ∧
      (pinned way).branches s.first.ledger = (s.spine way).map fun e => pinned e.1 := by
  have hpath := hn _ (append_mem_paths hs s.firstPath_mem_paths)
  have hopen : ∀ x ∈ s.firstPath, (pinned way).fixes x.rule = false := by
    intro x hx
    refine eq_false_of_ne_true fun hf => ?_
    rw [List.map_append] at hpath
    exact List.disjoint_of_nodup_append hpath ((fixes_pinned way x.rule).mp hf)
      (List.mem_map_of_mem hx)
  have hwayn : (way.map (·.rule)).Nodup := by
    rw [List.map_append] at hpath
    exact hpath.of_append_left
  constructor
  · rw [follow_at? hs fun x hx => permits_pinned hwayn hx, follow_eq_first hopen]
  · have hl : s.first.ledger = way ++ s.firstPath := by
      simpa using ledger_first (reports_at? hledger hs)
    rw [hl, Choices.branches, branchesFrom_append_of_fixed (fun _ h => h),
      branchesFrom_firstPath hpath hopen]
    exact fun x hx => (fixes_pinned way x.rule).mpr (List.mem_map_of_mem hx)

-- What the run leaves to be tried is put on the agenda, all of it.
theorem Underway.enlistAll_spine (h : root.Underway ((way, s) :: stack) known)
    (hn : ∀ path ∈ root.paths, (path.map (·.rule)).Nodup) :
    Agenda.enlistAll ⟨stack.map fun e => pinned e.1, known.map pinned⟩
        ((s.spine way).map fun e => pinned e.1) =
      ⟨((s.spine way).reverse ++ stack).map fun e => pinned e.1,
        ((s.spine way).reverse.map Prod.fst ++ known).map pinned⟩ := by
  have hs := h.located (way, s) List.mem_cons_self
  rw [enlistAll_of_disagree]
  · simp [Function.comp_def]
  · intro b hb k hk
    obtain ⟨e, he, rfl⟩ := List.mem_map.mp hb
    obtain ⟨w, hw, rfl⟩ := List.mem_map.mp hk
    obtain ⟨r, hr⟩ := h.real w hw
    have hne : e.1 ≠ w := fun heq => h.fresh he (heq ▸ hw)
    exact disagree_of_ne hn (at?_of_mem_spine hs he) hr hne
  · have hspine := nodup_spine way s
    rw [List.Nodup, List.pairwise_map] at hspine
    rw [List.pairwise_map]
    refine hspine.imp_of_mem fun he hf hne => ?_
    exact disagree_of_ne hn (at?_of_mem_spine hs hf) (at?_of_mem_spine hs he) (Ne.symm hne)

theorem Underway.explores (hn : ∀ path ∈ root.paths, (path.map (·.rule)).Nodup)
    (hledger : root.Reports []) (h : root.Underway stack known) {ds : List Derivation}
    (hds : Run.Explores (fun choices => .done (root.follow choices))
      ⟨stack.map fun e => pinned e.1, known.map pinned⟩ ds) :
    ds.map (·.unchosen) = (stack.flatMap (·.2.leaves)).map (·.unchosen) := by
  generalize ha : (⟨stack.map fun e => pinned e.1, known.map pinned⟩ : Agenda) = a at hds
  induction hds generalizing stack known with
  | done tried =>
      obtain ⟨hstack, -⟩ := Agenda.mk.inj ha
      obtain rfl : stack = [] := List.map_eq_nil_iff.mp hstack
      rfl
  | @turn choices rest tried d later hd _ ih =>
      obtain ⟨hstack, rfl⟩ := Agenda.mk.inj ha
      obtain ⟨⟨way, s⟩, stack, rfl, rfl, rfl⟩ := List.map_eq_cons_iff.mp hstack
      have hs := h.located (way, s) List.mem_cons_self
      obtain ⟨hfollow, hbranches⟩ := follow_pinned hn hledger hs
      obtain rfl : root.follow (pinned way) = d := by simpa using hd
      rw [hfollow, Derivation.ledger_withChoices, hbranches] at ih
      rw [List.map_cons, ih h.advance (h.enlistAll_spine hn).symm, hfollow, List.flatMap_cons,
        leaves_eq_first_spine way s]
      simp [Derivation.unchosen]

-- Where the ledger of each run is the way that the choices take through a tree, the runs are made
-- along the paths of the tree.
theorem ledgers_of_all {run : Run} {rules : List Rule}
    (hn : ∀ path ∈ root.paths, (path.map (·.rule)).Nodup) (hreports : root.Reports [])
    (hrun : ∀ choices d, run choices = .done d → d.ledger = (root.follow choices).ledger)
    {ds : List Derivation} (h : run.all rules = .ok ds) : ds.map (·.ledger) = root.paths := by
  obtain ⟨es, hes, hledgers⟩ := (Run.explores_of_explore h).of_ledgers
    (fun choices => .done (root.follow choices))
    fun choices d hd => ⟨_, rfl, (hrun choices d hd).symm⟩
  have hleaves := congrArg (List.map (·.ledger)) ((underway_start root).explores hn hreports hes)
  simp only [List.map_map, List.flatMap_cons, List.flatMap_nil, List.append_nil] at hleaves
  calc ds.map (·.ledger) = es.map (·.ledger) := hledgers.symm
    _ = root.leaves.map (·.ledger) := hleaves
    _ = root.paths.map ([] ++ ·) := map_ledger_leaves hreports
    _ = root.paths := List.map_id _

end DecisionTree

namespace Program

-- Whether the ledger of the program has entries for optional rules only.
def WritesNoDecision : Program → Prop
  | .halt => True
  | .push _ rest | .append _ rest | .step _ rest => rest.WritesNoDecision
  | .optional _ _ accepted declined rest =>
    accepted.WritesNoDecision ∧ declined.WritesNoDecision ∧ rest.WritesNoDecision
  | .ifText _ same different rest =>
    same.WritesNoDecision ∧ different.WritesNoDecision ∧ rest.WritesNoDecision
  | .accept _ _ | .decline _ _ => False

theorem reports_treeThen {p : Program} (hp : p.WritesNoDecision)
    {next : Derivation → DecisionTree} (hnext : ∀ e, (next e).Reports e.ledger)
    (d : Derivation) : (p.treeThen next d).Reports d.ledger := by
  induction p generalizing next d with
  | halt => exact hnext d
  | push t rest ih => exact ih hp hnext (d.push t)
  | append s rest ih => exact ih hp hnext (appendToFirst s d)
  | optional rule s accepted declined rest iha ihd ihr =>
      obtain ⟨ha, hd, hr⟩ := hp
      constructor
      · simpa using iha ha (fun e => ihr hr hnext e)
          ((appendToFirst s (d.accept rule)).record rule)
      · exact ihd hd (fun e => ihr hr hnext e) (d.decline rule)
  | ifText s same different rest ihs ihd ihr =>
      obtain ⟨hsame, hdiff, hr⟩ := hp
      simp only [treeThen]
      split
      · exact ihs hsame (fun e => ihr hr hnext e) d
      · exact ihd hdiff (fun e => ihr hr hnext e) d
  | step rule rest ih => simpa [treeThen] using ih hp hnext (d.record rule)
  | accept rule rest ih => exact hp.elim
  | decline rule rest ih => exact hp.elim

end Program

-- Of the two the tree alone says in which order the forms come: its leaves from left to
-- right, a later leaf with an earlier text left out.
theorem search_traverses_tree (p : Program) (recording : Bool) (table : FeatureTable)
    (hown : p.WritesNoDecision)
    (hn : ∀ path ∈ (p.tree (.start [] recording table)).paths, (path.map (·.rule)).Nodup) :
    ∃ ds, p.runs recording table = .ok ds ∧
      ds.map (·.ledger) = (p.tree (.start [] recording table)).paths ∧
      (ds.map (·.ledger)).Nodup ∧
      ds.map (·.unchosen) = (p.tree (.start [] recording table)).leaves.map (·.unchosen) ∧
      (firstOfEachText ds).map (·.unchosen) =
        firstOfEachText ((p.tree (.start [] recording table)).leaves.map (·.unchosen)) := by
  have hledger : (p.tree (.start [] recording table)).Reports [] := by
    have hleaf : ∀ e : Derivation, (DecisionTree.leaf e).Reports e.ledger := fun e => rfl
    exact Program.reports_treeThen hown hleaf (.start [] recording table)
  obtain ⟨ds, hds⟩ := Run.all_ok
    (DecisionTree.names_follow (Program.rules_tree p [] recording table))
  have hleaves : ds.map (·.unchosen) =
      (p.tree (.start [] recording table)).leaves.map (·.unchosen) := by
    simpa using (DecisionTree.underway_start _).explores hn hledger
      (Run.explores_of_explore hds)
  have hpaths : ds.map (·.ledger) = (p.tree (.start [] recording table)).paths := by
    have hmap := congrArg (List.map (·.ledger)) hleaves
    have hl := DecisionTree.map_ledger_leaves hledger
    simpa [List.map_map, Function.comp_def, Derivation.unchosen, hl] using hmap
  refine ⟨ds, (Program.runs_eq p recording table).trans hds, hpaths, ?_, hleaves, ?_⟩
  · rw [hpaths]
    exact DecisionTree.nodup_paths _
  · rw [firstOfEachText, firstOfTextFrom_map (f := (·.unchosen)) fun _ => rfl, hleaves,
      firstOfEachText]

-- A rule that depends on another one, and three leaves with one text.
def pairOfRules : Program :=
  .push (.ofText "x".toList)
    (.optional "A" "a".toList (.optional "B" [] .halt .halt .halt)
      (.optional "B" "a".toList .halt .halt .halt) .halt)

theorem search_traverses_pairOfRules :
    pairOfRules.WritesNoDecision ∧
    (∀ path ∈ (pairOfRules.tree (.start [] true .standard)).paths, (path.map (·.rule)).Nodup) ∧
    ∃ ds, pairOfRules.runs true .standard = .ok ds ∧
      ds.map (·.ledger) =
        [[⟨"A", .accepted⟩, ⟨"B", .accepted⟩], [⟨"A", .accepted⟩, ⟨"B", .declined⟩],
          [⟨"A", .declined⟩, ⟨"B", .accepted⟩], [⟨"A", .declined⟩, ⟨"B", .declined⟩]] ∧
      (firstOfEachText ds).map (·.text) = ["xa".toList, "x".toList] := by
  have hown : pairOfRules.WritesNoDecision := by simp [pairOfRules, Program.WritesNoDecision]
  have hn : ∀ path ∈ (pairOfRules.tree (.start [] true .standard)).paths,
      (path.map (·.rule)).Nodup := by decide +kernel
  obtain ⟨ds, hds, hledgers, -, -, hforms⟩ := search_traverses_tree pairOfRules true .standard hown hn
  refine ⟨hown, hn, ds, hds, hledgers.trans (by decide +kernel), ?_⟩
  have htexts := congrArg (List.map (·.text)) hforms
  simp only [List.map_map, Function.comp_def] at htexts
  exact htexts.trans (by decide +kernel)

end Vyakarana
