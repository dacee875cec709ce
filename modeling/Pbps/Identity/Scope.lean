/-
One scope of names resolved: what `resolveScope` leaves behind when it raises no blocker. Its loops
match the names that disappeared with the names that appeared; `Matched` is what they keep, and at
the end the live names are the declared ones.
-/
import Pbps.Identity.Resolve
import Pbps.Lib.Map
import Pbps.Lib.Lists
import Mathlib.Data.List.Induction

namespace Pbps.Identity

open Std (ExtTreeMap ExtTreeSet)
open List

/-! ## Contested renames -/

section Contested

variable {T : Type}

theorem mem_distinctIntents (group : List (Claim T)) (i : Intent) : i ∈ distinctIntents group ↔ ∃ c ∈ group, c.intent = i := by
  have h : ∀ (l : List (Claim T)) (acc : List Intent),
      i ∈ l.foldl (fun acc c => if c.intent ∈ acc then acc else acc ++ [c.intent]) acc ↔
        i ∈ acc ∨ ∃ c ∈ l, c.intent = i := by
    intro l
    induction l with
    | nil => simp
    | cons c l ih =>
      intro acc
      rw [foldl_cons, ih]
      simp only [mem_cons, exists_eq_or_imp]
      split
      · rename_i hc
        constructor
        · rintro (h | h)
          · exact Or.inl h
          · exact Or.inr (Or.inr h)
        · rintro (h | rfl | h)
          · exact Or.inl h
          · exact Or.inl hc
          · exact Or.inr h
      · simp [or_assoc, eq_comm]
  rw [distinctIntents, h]
  simp

theorem eq_of_distinctIntents {group : List (Claim T)} (h : (distinctIntents group).length < 2) {c d : Claim T}
    (hc : c ∈ group) (hd : d ∈ group) : c.intent = d.intent := by
  have h1 := (mem_distinctIntents group c.intent).2 ⟨c, hc, rfl⟩
  have h2 := (mem_distinctIntents group d.intent).2 ⟨d, hd, rfl⟩
  match hl : distinctIntents group with
  | [] => rw [hl] at h1; cases h1
  | [x] => rw [hl, mem_singleton] at h1 h2; rw [h1, h2]
  | _ :: _ :: _ => rw [hl] at h; simp only [length_cons] at h; omega

variable [Ord T] [Std.TransOrd T] [Std.LawfulEqOrd T] [DecidableEq T] {claims : List (Claim T)} {raw : T → String}

theorem contestedPass_clear {side : RenameSide} {pick : Claim T → T} {acc : List Blocker × Conflicting}
    (h : (contestedPass claims raw side pick acc).1 = []) : contestedPass claims raw side pick acc = acc ∧
      ∀ c ∈ claims, ∀ d ∈ claims, pick c = pick d → c.intent = d.intent := by
  have step : ∀ (acc : List Blocker × Conflicting) (name : T), (contestedStep claims raw side pick acc name).1 = [] →
      contestedStep claims raw side pick acc name = acc ∧
        (distinctIntents (claims.filter fun c => pick c = name)).length < 2 := by
    intro acc name h
    unfold contestedStep at h ⊢
    dsimp only at h ⊢
    split at h
    · rename_i hlt; exact ⟨if_pos hlt, hlt⟩
    · simp at h
  obtain ⟨h1, h2⟩ := foldl_idle (P := fun b => b.1 = []) step _ acc h
  refine ⟨h1, fun c hc d hd hcd => ?_⟩
  have hname : pick d ∈ (ExtTreeSet.ofList (claims.map pick)).toList := by
    rw [ExtTreeSet.mem_toList, ExtTreeSet.mem_ofList, contains_iff_mem]
    exact mem_map_of_mem hd
  exact eq_of_distinctIntents (h2 _ hname) (mem_filter.2 ⟨hc, by simpa using hcd⟩)
    (mem_filter.2 ⟨hd, by simp⟩)

theorem contestedRenameClaims_clear (h : (contestedRenameClaims claims raw).1 = []) :
    (contestedRenameClaims claims raw).2 = {} ∧ (∀ c ∈ claims, ∀ d ∈ claims, c.source = d.source → c.intent = d.intent) ∧
      ∀ c ∈ claims, ∀ d ∈ claims, c.target = d.target → c.intent = d.intent := by
  obtain ⟨h1, h2⟩ := contestedPass_clear h
  have h' : (contestedPass claims raw .source Claim.source ([], {})).1 = [] := by
    rw [contestedRenameClaims, h1] at h; exact h
  obtain ⟨h3, h4⟩ := contestedPass_clear h'
  refine ⟨?_, h4, h2⟩
  rw [contestedRenameClaims, h1, h3]

end Contested

/-! ## Blockers only accumulate -/

section Blockers

variable {N : Type} [Ord N] [Std.TransOrd N] [DecidableEq N] {sc : Scope N} {declared : List N}
  {known : ExtTreeMap N Uid} {intents : List Intent} {annotationCount : Nat}

theorem occupiedTargets_r (disappeared : List N) (claims : List (Claim N)) (s : Progress) :
    (occupiedTargets sc declared known disappeared claims intents annotationCount s).r = s.r := by
  refine foldlRecOn (motive := fun acc : Progress × List N => acc.1.r = s.r) _ _ rfl fun acc h entry _ => ?_
  unfold occupiedStep
  split
  · exact h
  · dsimp only
    split
    · split <;> exact h
    · exact h

variable {s : Progress}

theorem occupiedTargets_clear {disappeared : List N} {claims : List (Claim N)}
    (h : (occupiedTargets sc declared known disappeared claims intents annotationCount s).blockers = []) : s.blockers = [] := by
  refine foldl_back (P := fun acc : Progress × List N => acc.1.blockers = []) (fun acc entry h => ?_) _ (s, []) h
  unfold occupiedStep at h
  split at h
  · exact h
  · dsimp only at h
    split at h
    · split at h
      · simp [Progress.block, Progress.use] at h
      · exact h
    · exact h

theorem renameStep_blockers (m : Matching N) (entry : Intent × Nat) :
    (renameStep sc known m entry).s.blockers = m.s.blockers := by
  unfold renameStep
  split
  · rfl
  · split
    · split <;> rfl
    · rfl

theorem dropStep_blockers (m : Matching N) (entry : Intent × Nat) : (dropStep sc known m entry).s.blockers = m.s.blockers := by
  unfold dropStep
  split
  · rfl
  · split
    · split <;> rfl
    · rfl

omit [Ord N] [Std.TransOrd N] [DecidableEq N] in
theorem mintStep_clear {name : N} (h : (mintStep sc s name).blockers = []) :
    s.blockers = [] ∧ ∃ r, sc.mint s.r name = .ok r ∧ mintStep sc s name = { s with r } := by
  unfold mintStep at h ⊢
  cases hm : sc.mint s.r name with
  | error b => rw [hm] at h; simp [Progress.block] at h
  | ok r => rw [hm] at h; exact ⟨h, r, rfl, rfl⟩

variable {conflicting : Conflicting} {m : Matching N}

omit [Ord N] [Std.TransOrd N] [DecidableEq N] in
theorem settleScope_clear (h : (settleScope sc conflicting m).blockers = []) : m.s.blockers = [] := by
  unfold settleScope at h
  dsimp only at h
  split at h
  · simp [Progress.block] at h
  · have hb := foldl_back (P := fun s : Progress => s.blockers = []) (fun s a h => (mintStep_clear h).1) _ _ h
    exact (append_eq_nil_iff.1 hb).1

theorem matchingLoops_clear {entries : List (Intent × Nat)}
    (h : (settleScope sc conflicting (entries.foldl (dropStep sc known) (entries.foldl (renameStep sc known) m))).blockers
      = []) : m.s.blockers = [] := by
  have hrenamed : (entries.foldl (renameStep sc known) m).s.blockers = [] :=
    foldl_back (P := fun m : Matching N => m.s.blockers = [])
      (fun m e h => (dropStep_blockers m e).symm.trans h) entries _ (settleScope_clear h)
  exact foldl_back (P := fun m : Matching N => m.s.blockers = [])
    (fun m e h => (renameStep_blockers m e).symm.trans h) entries m hrenamed

theorem resolveScope_back (h : (resolveScope sc declared known intents annotationCount s).blockers = []) : s.blockers = [] := by
  unfold resolveScope at h
  exact (append_eq_nil_iff.1 (occupiedTargets_clear (matchingLoops_clear h))).1

end Blockers

/-! ## The matching loops -/

section Matching

variable {N : Type} [Ord N] [Std.TransOrd N] [DecidableEq N]

/-- What the edits of a scope owe: each keeps `I`, and changes the name of one uid as the view of the
scope sees it. -/
structure Scope.Keeps (sc : Scope N) (declared : List N) (known : ExtTreeMap N Uid) (intents : List Intent)
    (view : IdsFile → Uid → Option N) (I : IdsFile → Prop) : Prop where
  unique : ∀ {ids u v n}, I ids → view ids u = some n → view ids v = some n → u = v
  rename : ∀ {r : Resolution} {uid from_ to_ i}, I r.ids → view r.ids uid = some from_ →
    (∀ u, view r.ids u ≠ some to_) → from_ ∉ declared → to_ ∈ declared → to_ ∉ known →
    i ∈ intents → sc.renameOf i = some (from_, to_) →
    I (sc.onRename r uid from_ to_).ids ∧
      ∀ u, view (sc.onRename r uid from_ to_).ids u = if u = uid then some to_ else view r.ids u
  drop : ∀ {r : Resolution} {uid name reason i}, I r.ids → view r.ids uid = some name → name ∉ declared →
    (∀ i' ∈ intents, ∀ to_ ∈ declared, to_ ∉ known → sc.renameOf i' ≠ some (name, to_)) →
    i ∈ intents → sc.dropOf i = some (name, reason) →
    I (sc.onDrop r uid name reason).ids ∧
      ∀ u, view (sc.onDrop r uid name reason).ids u = if u = uid then none else view r.ids u
  mint : ∀ {r r' : Resolution} {name}, I r.ids → (∀ u, view r.ids u ≠ some name) → name ∈ declared →
    sc.mint r name = .ok r' →
    I r'.ids ∧ ∃ uid, view r.ids uid = none ∧ ∀ u, view r'.ids u = if u = uid then some name else view r.ids u

variable {sc : Scope N} {declared : List N} {known : ExtTreeMap N Uid} {intents : List Intent}
  {view : IdsFile → Uid → Option N} {I : IdsFile → Prop}

/-- The state between two turns of the matching loops: what the file names is what is declared and
no longer waits, and what disappeared and still does. -/
structure Matched (declared : List N) (known : ExtTreeMap N Uid) (view : IdsFile → Uid → Option N)
    (I : IdsFile → Prop) (m : Matching N) : Prop where
  keeps : I m.s.r.ids
  names : ∀ n, (∃ u, view m.s.r.ids u = some n) ↔ (n ∈ declared ∧ n ∉ m.appeared) ∨ n ∈ m.disappeared
  held : ∀ n ∈ m.disappeared, n ∉ declared ∧ ∀ uid, known[n]? = some uid → view m.s.r.ids uid = some n
  new : ∀ n ∈ m.appeared, n ∈ declared ∧ n ∉ known
  nodup_disappeared : m.disappeared.Nodup
  nodup_appeared : m.appeared.Nodup

variable {m : Matching N}

omit [DecidableEq N] in
theorem Matched.not_live (hm : Matched declared known view I m) {n : N} (hn : n ∈ m.appeared) (u : Uid) :
    view m.s.r.ids u ≠ some n := by
  intro h
  rcases (hm.names n).1 ⟨u, h⟩ with ⟨-, h⟩ | h
  · exact h hn
  · exact (hm.held n h).1 (hm.new n hn).1

variable {entry : Intent × Nat}

/-- What waits besides the name that is settled is held as before. -/
theorem Matched.held_erase (hm : Matched declared known view I m) {x : N} {uid : Uid} {ids : IdsFile}
    (hu : view m.s.r.ids uid = some x) (hsame : ∀ v, v ≠ uid → view ids v = view m.s.r.ids v) {n : N}
    (hn : n ∈ m.disappeared.erase x) : n ∉ declared ∧ ∀ v, known[n]? = some v → view ids v = some n := by
  rw [hm.nodup_disappeared.mem_erase_iff] at hn
  obtain ⟨h1, h2⟩ := hm.held n hn.2
  refine ⟨h1, fun v hv => ?_⟩
  have hne : v ≠ uid := by
    rintro rfl
    exact hn.1 (Option.some.inj (hu.symm.trans (h2 v hv))).symm
  rw [hsame v hne]
  exact h2 v hv

theorem Matched.renameStep (hk : sc.Keeps declared known intents view I) (hm : Matched declared known view I m)
    (hi : entry.1 ∈ intents) : Matched declared known view I (renameStep sc known m entry) := by
  unfold Identity.renameStep
  split
  · exact hm
  rename_i from_ to_ hr
  split
  swap
  · exact hm
  rename_i hft
  obtain ⟨hfrom, hto⟩ := hft
  split
  · exact hm
  rename_i uid huid
  obtain ⟨hfd, hview⟩ := hm.held from_ hfrom
  have hu := hview uid huid
  obtain ⟨hI, hnew⟩ := hk.rename hm.keeps hu (hm.not_live hto) hfd (hm.new to_ hto).1 (hm.new to_ hto).2 hi hr
  refine ⟨hI, fun n => ?_, fun n hn => ?_, fun n hn => hm.new n (mem_of_mem_erase hn),
    hm.nodup_disappeared.erase _, hm.nodup_appeared.erase _⟩
  · simp only [hnew, hm.nodup_appeared.mem_erase_iff, hm.nodup_disappeared.mem_erase_iff]
    constructor
    · rintro ⟨u, h⟩
      split at h
      · cases h; exact Or.inl ⟨(hm.new to_ hto).1, by simp⟩
      · rename_i hne
        have hnf : n ≠ from_ := by rintro rfl; exact hne (hk.unique hm.keeps h hu)
        rcases (hm.names n).1 ⟨u, h⟩ with ⟨h1, h2⟩ | h
        · exact Or.inl ⟨h1, fun h => h2 h.2⟩
        · exact Or.inr ⟨hnf, h⟩
    · intro h
      by_cases hn : n = to_
      · exact ⟨uid, by rw [if_pos rfl, hn]⟩
      · have hnf : n ≠ from_ := by
          rintro rfl
          rcases h with ⟨h, -⟩ | ⟨h, -⟩
          · exact hfd h
          · exact h rfl
        have : (n ∈ declared ∧ n ∉ m.appeared) ∨ n ∈ m.disappeared := by
          rcases h with ⟨h1, h2⟩ | ⟨-, h⟩
          · exact Or.inl ⟨h1, fun h => h2 ⟨hn, h⟩⟩
          · exact Or.inr h
        obtain ⟨u, h⟩ := (hm.names n).2 this
        have hne : u ≠ uid := by rintro rfl; rw [hu] at h; exact hnf (Option.some.inj h).symm
        exact ⟨u, by rw [if_neg hne]; exact h⟩
  · exact hm.held_erase hu (fun v hv => (hnew v).trans (if_neg hv)) hn

theorem Matched.dropStep (hk : sc.Keeps declared known intents view I) (hm : Matched declared known view I m)
    (hi : entry.1 ∈ intents)
    (hun : ∀ n ∈ m.disappeared, ∀ i ∈ intents, ∀ to_ ∈ declared, to_ ∉ known → sc.renameOf i ≠ some (n, to_)) :
    Matched declared known view I (dropStep sc known m entry) := by
  unfold Identity.dropStep
  split
  · exact hm
  rename_i name reason hr
  split
  swap
  · exact hm
  rename_i hn
  split
  · exact hm
  rename_i uid huid
  obtain ⟨hfd, hview⟩ := hm.held name hn
  have hu := hview uid huid
  obtain ⟨hI, hnew⟩ := hk.drop hm.keeps hu hfd (hun name hn) hi hr
  refine ⟨hI, fun n => ?_, fun n hn => ?_, hm.new, hm.nodup_disappeared.erase _, hm.nodup_appeared⟩
  · simp only [hnew, hm.nodup_disappeared.mem_erase_iff]
    constructor
    · rintro ⟨u, h⟩
      split at h
      · cases h
      · rename_i hne
        have hnn : n ≠ name := by rintro rfl; exact hne (hk.unique hm.keeps h hu)
        rcases (hm.names n).1 ⟨u, h⟩ with h | h
        · exact Or.inl h
        · exact Or.inr ⟨hnn, h⟩
    · intro h
      have hnn : n ≠ name := by
        rintro rfl
        rcases h with ⟨h, -⟩ | ⟨h, -⟩
        · exact hfd h
        · exact h rfl
      obtain ⟨u, h⟩ := (hm.names n).2 (h.imp_right And.right)
      have hne : u ≠ uid := by rintro rfl; rw [hu] at h; exact hnn (Option.some.inj h).symm
      exact ⟨u, by rw [if_neg hne]; exact h⟩
  · exact hm.held_erase hu (fun v hv => (hnew v).trans (if_neg hv)) hn

variable (sc known intents) in
/-- Where no two intents contend for a target, a rename that could match does match: once its turn
has passed, its source no longer waits. -/
theorem renameLoop_complete (m₀ : Matching N) (hknown : ∀ n ∈ m₀.disappeared, n ∈ known)
    (hd : m₀.disappeared.Nodup) (ha : m₀.appeared.Nodup)
    (huniq : ∀ i ∈ intents, ∀ j ∈ intents, ∀ a ∈ m₀.disappeared, ∀ a' ∈ m₀.disappeared, ∀ b ∈ m₀.appeared,
      sc.renameOf i = some (a, b) → sc.renameOf j = some (a', b) → i = j) (l : List (Intent × Nat))
    (hl : ∀ e ∈ l, e.1 ∈ intents) :
    let m := l.foldl (Identity.renameStep sc known) m₀
    (∀ e ∈ l, ∀ a ∈ m₀.disappeared, ∀ b ∈ m₀.appeared, sc.renameOf e.1 = some (a, b) → a ∉ m.disappeared) ∧
      (∀ b ∈ m₀.appeared, b ∉ m.appeared → ∃ e ∈ l, ∃ a ∈ m₀.disappeared, sc.renameOf e.1 = some (a, b)) ∧
      m.disappeared.Nodup ∧ m.appeared.Nodup ∧ (∀ n ∈ m.disappeared, n ∈ m₀.disappeared) ∧
      ∀ n ∈ m.appeared, n ∈ m₀.appeared := by
  induction l using reverseRecOn with
  | nil => exact ⟨by simp, fun b h hn => absurd h hn, hd, ha, fun _ h => h, fun _ h => h⟩
  | append_singleton l e ih =>
    obtain ⟨gone, taken, nd, na, sd, sa⟩ := ih fun e he => hl e (mem_append_left _ he)
    have he := hl e (by simp)
    rw [foldl_append, foldl_cons, foldl_nil]
    generalize l.foldl (Identity.renameStep sc known) m₀ = m at gone taken nd na sd sa
    have keep : (∀ a ∈ m₀.disappeared, ∀ b ∈ m₀.appeared, sc.renameOf e.1 = some (a, b) → a ∉ m.disappeared) →
        (∀ e' ∈ l ++ [e], ∀ a ∈ m₀.disappeared, ∀ b ∈ m₀.appeared, sc.renameOf e'.1 = some (a, b) →
          a ∉ m.disappeared) ∧
        ∀ b ∈ m₀.appeared, b ∉ m.appeared → ∃ e' ∈ l ++ [e], ∃ a ∈ m₀.disappeared, sc.renameOf e'.1 = some (a, b) := by
      intro h
      refine ⟨fun e' he' => ?_, fun b hb hn => ?_⟩
      · rcases mem_append.1 he' with he' | he'
        · exact gone e' he'
        · rw [mem_singleton] at he'; subst he'; exact h
      · obtain ⟨e', he', a, h⟩ := taken b hb hn
        exact ⟨e', mem_append_left _ he', a, h⟩
    unfold Identity.renameStep
    split
    · rename_i hr
      obtain ⟨h1, h2⟩ := keep fun a _ b _ h => by rw [hr] at h; cases h
      exact ⟨h1, h2, nd, na, sd, sa⟩
    rename_i from_ to_ hr
    split
    · rename_i hft
      obtain ⟨uid, huid⟩ := ExtTreeMap.mem_iff_exists.1 (hknown from_ (sd from_ hft.1))
      simp only [huid]
      refine ⟨fun e' he' a ha b hb h => ?_, fun b hb hn => ?_, nd.erase _, na.erase _,
        fun n h => sd n (mem_of_mem_erase h), fun n h => sa n (mem_of_mem_erase h)⟩
      · rw [nd.mem_erase_iff]
        rintro ⟨h1, h2⟩
        rcases mem_append.1 he' with he' | he'
        · exact gone e' he' a ha b hb h h2
        · rw [mem_singleton] at he'; subst he'; rw [hr] at h; cases h; exact h1 rfl
      · by_cases hbt : b = to_
        · subst hbt; exact ⟨e, by simp, from_, sd from_ hft.1, hr⟩
        · obtain ⟨e', he', a, h⟩ := taken b hb fun h => hn (na.mem_erase_iff.2 ⟨hbt, h⟩)
          exact ⟨e', mem_append_left _ he', a, h⟩
    · rename_i hft
      obtain ⟨h1, h2⟩ := keep fun a ha b hb h hm => by
        rw [hr] at h; cases h
        -- the target is gone, so an intent before took it, and it is this one
        have hbm : to_ ∉ m.appeared := fun h => hft ⟨hm, h⟩
        obtain ⟨e', he', a', ha', h'⟩ := taken to_ hb hbm
        have heq := huniq e'.1 (hl e' (mem_append_left _ he')) e.1 he a' ha' from_ ha to_ hb h' hr
        rw [heq, hr] at h'; cases h'
        exact gone e' he' from_ ha to_ hb (heq ▸ hr) hm
      exact ⟨h1, h2, nd, na, sd, sa⟩

/-- A scope that settles unblocked has exactly the declared names live. -/
theorem Matched.settle (hk : sc.Keeps declared known intents view I) (hm : Matched declared known view I m)
    (h : (settleScope sc {} m).blockers = []) :
    I (settleScope sc {} m).r.ids ∧ ∀ n, (∃ u, view (settleScope sc {} m).r.ids u = some n) ↔ n ∈ declared := by
  have hclear : ∀ l : List N, (l.filter fun n => !(∅ : ExtTreeSet String).contains (sc.raw n)) = l := by
    intro l; simp
  unfold settleScope at h ⊢
  simp only [hclear] at h ⊢
  split at h
  · simp [Progress.block] at h
  rename_i hamb
  rw [if_neg hamb]
  -- the mint loop: the names still to come are the declared ones that no uid has
  have loop : ∀ (l : List N) (s : Progress), I s.r.ids → l.Nodup → (∀ n ∈ l, n ∈ declared) →
      (∀ n, (∃ u, view s.r.ids u = some n) ↔ n ∈ declared ∧ n ∉ l) → (l.foldl (mintStep sc) s).blockers = [] →
      I (l.foldl (mintStep sc) s).r.ids ∧
        ∀ n, (∃ u, view (l.foldl (mintStep sc) s).r.ids u = some n) ↔ n ∈ declared := by
    intro l
    induction l with
    | nil => intro s hI _ _ hn _; exact ⟨hI, fun n => (hn n).trans (by simp)⟩
    | cons a l ih =>
      intro s hI hnd hdecl hn hb
      rw [foldl_cons] at hb ⊢
      have hstep := foldl_back (P := fun s : Progress => s.blockers = []) (fun s a h => (mintStep_clear h).1) l _ hb
      obtain ⟨-, r, hr, heq⟩ := mintStep_clear hstep
      have hfree : ∀ u, view s.r.ids u ≠ some a := fun u hu => ((hn a).1 ⟨u, hu⟩).2 (by simp)
      obtain ⟨hI', uid, hnone, hview⟩ := hk.mint hI hfree (hdecl a (by simp)) hr
      rw [heq] at hb ⊢
      refine ih _ hI' (nodup_cons.1 hnd).2 (fun n h => hdecl n (by simp [h])) (fun n => ?_) hb
      simp only [hview]
      constructor
      · rintro ⟨u, h⟩
        split at h
        · cases h; exact ⟨hdecl a (by simp), (nodup_cons.1 hnd).1⟩
        · obtain ⟨h1, h2⟩ := (hn n).1 ⟨u, h⟩
          exact ⟨h1, fun h => h2 (by simp [h])⟩
      · rintro ⟨h1, h2⟩
        by_cases hna : n = a
        · exact ⟨uid, by rw [if_pos rfl, hna]⟩
        · obtain ⟨u, h⟩ := (hn n).2 ⟨h1, by simp [hna, h2]⟩
          have : u ≠ uid := by rintro rfl; rw [hnone] at h; cases h
          exact ⟨u, by rw [if_neg this]; exact h⟩
  have hb := foldl_back (P := fun s : Progress => s.blockers = []) (fun s a h => (mintStep_clear h).1) _ _ h
  have hnone : m.disappeared = [] := map_eq_nil_iff.1 (append_eq_nil_iff.1 hb).2
  refine loop _ _ hm.keeps hm.nodup_appeared (fun n h => (hm.new n h).1) (fun n => ?_) h
  exact (hm.names n).trans (by simp [hnone])

variable [Std.LawfulEqOrd N]

/-- A scope resolved without a blocker: nothing was blocked before, `I` holds, the names are the
declared ones, and no name that disappeared could have been renamed to two. -/
theorem resolveScope_clear (hk : sc.Keeps declared known intents view I) {annotationCount : Nat} {s : Progress}
    (hI : I s.r.ids) (hnd : declared.Nodup) (hknown : ∀ n uid, known[n]? = some uid ↔ view s.r.ids uid = some n)
    (h : (resolveScope sc declared known intents annotationCount s).blockers = []) :
    s.blockers = [] ∧ I (resolveScope sc declared known intents annotationCount s).r.ids ∧
      (∀ n, (∃ u, view (resolveScope sc declared known intents annotationCount s).r.ids u = some n) ↔ n ∈ declared) ∧
      ∀ i ∈ intents, ∀ j ∈ intents, ∀ a b b', a ∈ known → a ∉ declared → b ∈ declared → b ∉ known → b' ∈ declared →
        b' ∉ known → sc.renameOf i = some (a, b) → sc.renameOf j = some (a, b') → b = b' := by
  unfold resolveScope at h ⊢
  dsimp only at h ⊢
  set appeared := declared.filter fun n => !known.contains n with happ
  set disappeared := known.keys.filter fun n => n ∉ declared with hdis
  set claims := scopeClaims sc disappeared appeared intents with hclaims
  have mem_app : ∀ n, n ∈ appeared ↔ n ∈ declared ∧ n ∉ known := by
    intro n; simp [happ, mem_filter, ← ExtTreeMap.contains_iff_mem]
  have mem_dis : ∀ n, n ∈ disappeared ↔ n ∈ known ∧ n ∉ declared := by
    intro n; simp [hdis, mem_filter, ExtTreeMap.mem_keys]
  have mem_claims : ∀ {i a b}, i ∈ intents → sc.renameOf i = some (a, b) → a ∈ disappeared → b ∈ appeared →
      ⟨i, a, b⟩ ∈ claims := by
    intro i a b hi hr ha hb
    rw [hclaims, scopeClaims, mem_filterMap]
    exact ⟨i, hi, by simp [hr, ha, hb]⟩
  have nd_dis : disappeared.Nodup :=
    (ExtTreeMap.distinct_keys.imp fun h he => h (by rw [he]; exact Std.ReflOrd.compare_self)).filter _
  have nd_app : appeared.Nodup := hnd.filter _
  set s₁ : Progress := occupiedTargets sc declared known disappeared claims intents annotationCount
    { s with blockers := s.blockers ++ (contestedRenameClaims claims sc.raw).1 } with hs₁
  have hr₁ : s₁.r = s.r := by rw [hs₁, occupiedTargets_r]
  set m₀ : Matching N := { disappeared, appeared, s := s₁ } with hm₀
  set m₁ := intents.zipIdx.foldl (renameStep sc known) m₀ with hm₁
  set m₂ := intents.zipIdx.foldl (dropStep sc known) m₁ with hm₂
  have hin : ∀ e ∈ intents.zipIdx, e.1 ∈ intents := fun e he => (mem_zipIdx' he).2 ▸ getElem_mem _
  have hb₀ : s₁.blockers = [] := matchingLoops_clear h
  obtain ⟨hb, hcon⟩ := append_eq_nil_iff.1 (occupiedTargets_clear hb₀)
  obtain ⟨hconf, hsource, htarget⟩ := contestedRenameClaims_clear hcon
  rw [hconf] at h ⊢
  have matched₀ : Matched declared known view I m₀ := by
    refine ⟨by rw [hm₀, hr₁]; exact hI, fun n => ?_, fun n hn => ?_, fun n hn => (mem_app n).1 hn, nd_dis, nd_app⟩
    · simp only [hm₀, hr₁, mem_app, mem_dis, ← hknown, ← ExtTreeMap.mem_iff_exists]
      tauto
    · refine ⟨((mem_dis n).1 hn).2, fun uid hu => ?_⟩
      rw [hm₀, hr₁]
      exact (hknown n uid).1 hu
  have matched₁ : Matched declared known view I m₁ :=
    foldlRecOn (motive := Matched declared known view I) _ _ matched₀
      fun m hm e he => hm.renameStep hk (hin e he)
  obtain ⟨gone, -, -, -, sub, -⟩ := renameLoop_complete sc known intents m₀
    (fun n hn => ((mem_dis n).1 hn).1) nd_dis nd_app
    (fun i hi j hj a ha a' ha' b hb h1 h2 =>
      htarget _ (mem_claims hi h1 ha hb) _ (mem_claims hj h2 ha' hb) rfl) intents.zipIdx hin
  have unclaimed : ∀ n ∈ m₁.disappeared, ∀ i ∈ intents, ∀ to_ ∈ declared, to_ ∉ known → sc.renameOf i ≠ some (n, to_) := by
    intro n hn i hi to_ hd hk' hr
    obtain ⟨k, hk, rfl⟩ := getElem_of_mem hi
    have hmem : (intents[k], k) ∈ intents.zipIdx := by simp [mem_zipIdx_iff_getElem?, hk]
    exact gone _ hmem n (sub n hn) to_ ((mem_app to_).2 ⟨hd, hk'⟩) hr hn
  have matched₂ : Matched declared known view I m₂ ∧ ∀ n ∈ m₂.disappeared, n ∈ m₁.disappeared := by
    refine foldlRecOn (motive := fun m => Matched declared known view I m ∧ ∀ n ∈ m.disappeared, n ∈ m₁.disappeared)
      _ _ ⟨matched₁, fun _ h => h⟩ fun m hm e he => ⟨hm.1.dropStep hk (hin e he) fun n hn => unclaimed n (hm.2 n hn), ?_⟩
    intro n hn
    unfold dropStep at hn
    split at hn
    · exact hm.2 n hn
    · split at hn
      · split at hn
        · exact hm.2 n hn
        · exact hm.2 n (mem_of_mem_erase hn)
      · exact hm.2 n hn
  obtain ⟨hI', hnames⟩ := matched₂.1.settle hk h
  refine ⟨hb, hI', hnames, fun i hi j hj a b b' ha had hb hbk hb' hbk' h1 h2 => ?_⟩
  have hda := (mem_dis a).2 ⟨ha, had⟩
  have heq : i = j := hsource _ (mem_claims hi h1 hda ((mem_app b).2 ⟨hb, hbk⟩)) _
    (mem_claims hj h2 hda ((mem_app b').2 ⟨hb', hbk'⟩)) rfl
  rw [heq, h2] at h1
  cases h1; rfl

end Matching

end Pbps.Identity
