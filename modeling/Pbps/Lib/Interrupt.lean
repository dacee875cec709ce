/-
Programs of effects that can be stopped before any of them: what has taken effect stays, and the rest of the program is
lost. A condition on every effect a program can make, whatever the answers, carries over to every run of it, and to any
sequence of programs run on one world, each stopped anywhere.
-/
import Mathlib.Tactic.Common

/-- A program whose effects answer it. -/
inductive Prog (E : Type) (A : E → Type) (α : Type) where
  | ret (a : α)
  | fail
  | act (e : E) (k : A e → Prog E A α)

namespace Prog

variable {E : Type} {A : E → Type} {W α β : Type}

def bind : Prog E A α → (α → Prog E A β) → Prog E A β
  | .ret a, f => f a
  | .fail, _ => .fail
  | .act e k, f => .act e fun b => (k b).bind f

instance : Monad (Prog E A) where
  pure := .ret
  bind := .bind

def eff (e : E) : Prog E A (A e) := .act e .ret

inductive Outcome (α : Type) where
  | returned (a : α)
  | failed
  | stopped
  deriving DecidableEq, Repr

/-- An effect and the worlds around it. -/
structure Event (E W : Type) where
  before : W
  effect : E
  after : W

section

variable (may : (e : E) → W → A e → W → Prop)

/-- A run: the effects it made, how it ended, and the world it left. -/
inductive Ends : Prog E A α → W → List (Event E W) → Outcome α → W → Prop
  | ret {a : α} {w : W} : Ends (.ret a) w [] (.returned a) w
  | fail {w : W} : Ends .fail w [] .failed w
  | stop {e : E} {k : A e → Prog E A α} {w : W} : Ends (.act e k) w [] .stopped w
  | act {e : E} {k : A e → Prog E A α} {w w' w'' : W} {b : A e} {es : List (Event E W)} {o : Outcome α}
      (hmay : may e w b w') (h : Ends (k b) w' es o w'') : Ends (.act e k) w (⟨w, e, w'⟩ :: es) o w''

/-- Programs run one after the other on one world, each to its end or to where it was stopped. -/
inductive Runs {C : Type} (prog : C → Prog E A α) : W → List (Event E W) → W → Prop
  | nil {w : W} : Runs prog w [] w
  | cons {c : C} {w w' w'' : W} {es es' : List (Event E W)} {o : Outcome α} (h : Ends may (prog c) w es o w')
      (hs : Runs prog w' es' w'') : Runs prog w (es ++ es') w''

/-- Whatever the answers, each effect is an allowed one, a return meets its condition and a failure its own. -/
def Wp (allowed : W → E → W → Prop) (fails : W → Prop) : Prog E A α → (α → W → Prop) → W → Prop
  | .ret a, post, w => post a w
  | .fail, _, w => fails w
  | .act e k, post, w => ∀ b w', may e w b w' → allowed w e w' ∧ Wp allowed fails (k b) post w'

end

variable {may : (e : E) → W → A e → W → Prop} {allowed : W → E → W → Prop} {fails : W → Prop}

variable {p : Prog E A α} {post : α → W → Prop} {w w' : W} {es : List (Event E W)}

theorem Wp.mono {post' : α → W → Prop} (h : Wp may allowed fails p post w) (hpost : ∀ a w, post a w → post' a w) :
    Wp may allowed fails p post' w := by
  induction p generalizing w with
  | ret a => exact hpost a w h
  | fail => exact h
  | act e k ih => exact fun b w' hmay => ⟨(h b w' hmay).1, ih b (h b w' hmay).2⟩

theorem Wp.bind {f : α → Prog E A β} {post : β → W → Prop}
    (h : Wp may allowed fails p (fun a w => Wp may allowed fails (f a) post w) w) : Wp may allowed fails (p >>= f) post w := by
  induction p generalizing w with
  | ret a => exact h
  | fail => exact h
  | act e k ih => exact fun b w' hmay => ⟨(h b w' hmay).1, ih b (h b w' hmay).2⟩

variable {o : Outcome α} {inv : W → Prop}

theorem Ends.of_wp (h : Ends may p w es o w') (hp : Wp may allowed fails p post w) :
    (∀ ev ∈ es, allowed ev.before ev.effect ev.after) ∧ (∀ a, o = .returned a → post a w') ∧ (o = .failed → fails w') := by
  induction h with
  | ret =>
    refine ⟨by simp, ?_, by simp⟩
    rintro a ⟨⟩
    exact hp
  | fail => exact ⟨by simp, by simp, fun _ => hp⟩
  | stop => exact ⟨by simp, by simp, by simp⟩
  | act hmay h ih =>
    obtain ⟨hallowed, hk⟩ := hp _ _ hmay
    obtain ⟨hes, hret, hfail⟩ := ih hk
    refine ⟨?_, hret, hfail⟩
    rintro ev (_ | ⟨_, hev⟩)
    · exact hallowed
    · exact hes ev hev

theorem Wp.answered (h : Wp may allowed fails p post w) :
    Wp may (fun w e w' => allowed w e w' ∧ ∃ b, may e w b w') fails p post w := by
  induction p generalizing w with
  | ret a => exact h
  | fail => exact h
  | act e k ih => exact fun b w' hmay => ⟨⟨(h b w' hmay).1, b, hmay⟩, ih b (h b w' hmay).2⟩

/-- What every allowed effect keeps holds before each effect of a run, and after it. -/
theorem Ends.keeps (hkeeps : ∀ w e w', allowed w e w' → inv w → inv w') (h : Ends may p w es o w')
    (hes : ∀ ev ∈ es, allowed ev.before ev.effect ev.after) (hinv : inv w) : inv w' ∧ ∀ ev ∈ es, inv ev.before := by
  induction h with
  | ret => exact ⟨hinv, by simp⟩
  | fail => exact ⟨hinv, by simp⟩
  | stop => exact ⟨hinv, by simp⟩
  | act hmay h ih =>
    have hnext := hkeeps _ _ _ (hes _ List.mem_cons_self) hinv
    obtain ⟨hlast, hrest⟩ := ih (fun ev hev => hes ev (List.mem_cons_of_mem _ hev)) hnext
    refine ⟨hlast, ?_⟩
    rintro ev (_ | ⟨_, hev⟩)
    · exact hinv
    · exact hrest ev hev

/-- The same of any sequence of programs, each of which keeps to the allowed effects where the invariant holds. -/
theorem Runs.keeps {C : Type} {prog : C → Prog E A α} (hkeeps : ∀ w e w', allowed w e w' → inv w → inv w')
    (hprog : ∀ c w, inv w → Wp may allowed (fun _ => True) (prog c) (fun _ _ => True) w) (h : Runs may prog w es w')
    (hinv : inv w) : inv w' ∧ ∀ ev ∈ es, inv ev.before ∧ allowed ev.before ev.effect ev.after := by
  induction h with
  | nil => exact ⟨hinv, by simp⟩
  | @cons c _ _ _ _ _ _ h hs ih =>
    obtain ⟨hes, -, -⟩ := h.of_wp (hprog c _ hinv)
    obtain ⟨hmid, hbefore⟩ := h.keeps hkeeps hes hinv
    obtain ⟨hlast, hrest⟩ := ih hmid
    refine ⟨hlast, fun ev hev => ?_⟩
    rcases List.mem_append.1 hev with hev | hev
    · exact ⟨hbefore ev hev, hes ev hev⟩
    · exact hrest ev hev

/-- Where every effect is answered, every program has a run that is not stopped. -/
theorem Ends.exists_of_total (htotal : ∀ e w, ∃ b w', may e w b w') (p : Prog E A α) (w : W) :
    ∃ es o w', Ends may p w es o w' ∧ o ≠ .stopped := by
  induction p generalizing w with
  | ret a => exact ⟨_, _, _, .ret, by simp⟩
  | fail => exact ⟨_, _, _, .fail, by simp⟩
  | act e k ih =>
    obtain ⟨b, w', hmay⟩ := htotal e w
    obtain ⟨es, o, w'', h, ho⟩ := ih b w'
    exact ⟨_, o, w'', .act hmay h, ho⟩

/-- The run that answers as it is told, stopped where there is no answer or after so many effects. -/
def exec (answer : (e : E) → W → Option (A e × W)) : Prog E A α → ℕ → W → List (Event E W) × Outcome α × W
  | .ret a, _, w => ([], .returned a, w)
  | .fail, _, w => ([], .failed, w)
  | .act _ _, 0, w => ([], .stopped, w)
  | .act e k, n + 1, w =>
    match answer e w with
    | none => ([], .stopped, w)
    | some (b, w') =>
      let r := exec answer (k b) n w'
      (⟨w, e, w'⟩ :: r.1, r.2)

theorem ends_exec {answer : (e : E) → W → Option (A e × W)} (hmay : ∀ e w b w', answer e w = some (b, w') → may e w b w')
    (p : Prog E A α) (n : ℕ) (w : W) : Ends may p w (p.exec answer n w).1 (p.exec answer n w).2.1 (p.exec answer n w).2.2 := by
  induction p generalizing n w with
  | ret a => exact .ret
  | fail => exact .fail
  | act e k ih =>
    cases n with
    | zero => exact .stop
    | succ n =>
      unfold exec
      cases h : answer e w with
      | none => exact .stop
      | some r => exact .act (hmay e w r.1 r.2 h) (ih r.1 n r.2)

end Prog
