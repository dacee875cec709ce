/-
Checks that raise an error or pass: when a sequence of them, or a loop of one, passes, and what a computation that may fail ends in.
-/
import Mathlib.Data.List.Forall2

namespace List.Forall₂

variable {α β : Type} {R : α → β → Prop} {l : List α} {m : List β}

theorem exists_of_mem_left (h : Forall₂ R l m) {a : α} (ha : a ∈ l) : ∃ b ∈ m, R a b := by
  induction h with
  | nil => cases ha
  | cons hab _ ih =>
    rcases mem_cons.1 ha with rfl | ha
    · exact ⟨_, mem_cons_self, hab⟩
    · obtain ⟨b, hb, hr⟩ := ih ha
      exact ⟨b, mem_cons_of_mem _ hb, hr⟩

theorem exists_of_mem_right (h : Forall₂ R l m) {b : β} (hb : b ∈ m) : ∃ a ∈ l, R a b :=
  exists_of_mem_left (R := fun b a => R a b) h.flip hb

variable {γ : Type}

theorem map_eq {f : α → γ} {g : β → γ} (h : Forall₂ R l m) (hfg : ∀ a b, R a b → f a = g b) : l.map f = m.map g := by
  have : Forall₂ Eq (l.map f) (m.map g) := forall₂_map_left_iff.2 (forall₂_map_right_iff.2 (h.imp hfg))
  rwa [forall₂_eq_eq_eq] at this

theorem filterMap_eq {f : α → Option γ} {g : β → Option γ} (h : Forall₂ R l m) (hfg : ∀ a, ∀ b ∈ m, R a b → f a = g b) :
    l.filterMap f = m.filterMap g := by
  induction h with
  | nil => rfl
  | @cons a b l m hab _ ih =>
    rw [filterMap_cons, filterMap_cons, hfg a b mem_cons_self hab, ih fun a b hb => hfg a b (mem_cons_of_mem _ hb)]

end List.Forall₂

namespace Except

open List

variable {ε : Type} {α : Type}

variable {a : α} {β : Type} {c : Prop} {e : ε}

theorem bind_eq_ok {x : Except ε Unit} {f : Unit → Except ε α} : (x >>= f) = .ok a ↔ x = .ok () ∧ f () = .ok a := by
  cases x with
  | error e => simp [bind, Except.bind]
  | ok u => simp [bind, Except.bind]

variable {x : Except ε β} {f : α → Except ε β}

theorem bind_eq_ok_iff {f : β → Except ε α} : (x >>= f) = .ok a ↔ ∃ b, x = .ok b ∧ f b = .ok a := by
  cases x with
  | error e => simp [bind, Except.bind]
  | ok b => simp [bind, Except.bind]

theorem map_eq_ok {f : β → α} : x.map f = .ok a ↔ ∃ b, x = .ok b ∧ f b = a := by
  cases x with
  | error e => simp [Except.map]
  | ok b => simp [Except.map]

theorem forM_eq_ok {f : α → Except ε Unit} : ∀ {l : List α}, l.forM f = .ok () ↔ ∀ a ∈ l, f a = .ok ()
  | [] => by simp [List.forM, pure, Except.pure]
  | a :: l => by
    show (f a >>= fun _ => l.forM f) = .ok () ↔ _
    rw [bind_eq_ok, forM_eq_ok, forall_mem_cons]

theorem mapM_eq_ok :
    ∀ {l : List α} {m : List β}, l.mapM f = .ok m ↔ Forall₂ (fun a b => f a = .ok b) l m
  | [], m => by simp [pure, Except.pure, eq_comm]
  | a :: l, m => by
    rw [mapM_cons, bind_eq_ok_iff]
    constructor
    · rintro ⟨b, hb, h⟩
      obtain ⟨m', hm, h⟩ := bind_eq_ok_iff.1 h
      cases h
      exact .cons hb (mapM_eq_ok.1 hm)
    · intro h
      cases h with
      | cons hb hm => exact ⟨_, hb, bind_eq_ok_iff.2 ⟨_, mapM_eq_ok.2 hm, rfl⟩⟩

theorem mapM_eq_ok_map {g : α → β} {P : α → Prop} {m : List β} :
    ∀ {l : List α}, (∀ a ∈ l, ∀ b, f a = .ok b ↔ P a ∧ b = g a) → (l.mapM f = .ok m ↔ (∀ a ∈ l, P a) ∧ m = l.map g)
  | [], _ => by simp [pure, Except.pure, eq_comm]
  | a :: l, h => by
    obtain ⟨ha, h⟩ := forall_mem_cons.1 h
    rw [mapM_cons, bind_eq_ok_iff, forall_mem_cons, map_cons]
    constructor
    · rintro ⟨b, hb, hl⟩
      obtain ⟨m', hm, hl⟩ := bind_eq_ok_iff.1 hl
      obtain ⟨hall, rfl⟩ := (mapM_eq_ok_map h).1 hm
      obtain ⟨hp, rfl⟩ := (ha b).1 hb
      exact ⟨⟨hp, hall⟩, (Except.ok.inj hl).symm⟩
    · rintro ⟨⟨hp, hall⟩, rfl⟩
      exact ⟨g a, (ha _).2 ⟨hp, rfl⟩, bind_eq_ok_iff.2 ⟨_, (mapM_eq_ok_map h).2 ⟨hall, rfl⟩, rfl⟩⟩

theorem mapM_cases : ∀ (l : List α), (∃ m, l.mapM f = .ok m) ∨
    ∃ a ∈ l, ∃ e, f a = .error e ∧ l.mapM f = .error e
  | [] => .inl ⟨[], rfl⟩
  | a :: l => by
    rw [mapM_cons]
    cases ha : f a with
    | error e => exact .inr ⟨a, mem_cons_self, e, ha, rfl⟩
    | ok b =>
      rcases mapM_cases l with ⟨m, hm⟩ | ⟨c, hc, e, hce, hm⟩
      · exact .inl ⟨b :: m, by rw [hm]; rfl⟩
      · exact .inr ⟨c, mem_cons_of_mem _ hc, e, hce, by rw [hm]; rfl⟩

theorem mapError_eq_ok {ε' : Type} {x : Except ε α} {f : ε → ε'} : x.mapError f = .ok a ↔ x = .ok a := by
  cases x <;> simp [Except.mapError]

theorem guard_eq_ok [Decidable c] : (if c then throw e else pure () : Except ε Unit) = .ok () ↔ ¬ c := by
  split <;> simp_all [throw, throwThe, MonadExceptOf.throw, pure, Except.pure]

theorem require_eq_ok [Decidable c] : (if c then pure () else throw e : Except ε Unit) = .ok () ↔ c := by
  split <;> simp_all [throw, throwThe, MonadExceptOf.throw, pure, Except.pure]

theorem guard_bind_eq_ok [Decidable c] {rest : Unit → Except ε α} :
    (if c then do let r ← throw e; rest r else rest ()) = .ok a ↔ ¬ c ∧ rest () = .ok a := by
  split <;> simp_all [throw, throwThe, MonadExceptOf.throw, bind, Except.bind]

/-! ## What a computation ends in -/

variable {good : ε → Prop}

/-- A computation that ends in a result that meets a condition, or in a good error. With the good errors those that a caller is
meant to see, it says that a program does not fail in any other way. -/
def Meets (good : ε → Prop) (post : α → Prop) : Except ε α → Prop
  | .ok a => post a
  | .error e => good e

variable {x : Except ε α}

variable {post : α → Prop} {f : α → Except ε β} {l : List α}

theorem Meets.mono {post' : α → Prop} (h : x.Meets good post) (hpost : ∀ a, post a → post' a) : x.Meets good post' := by
  cases x with
  | ok a => exact hpost a h
  | error e => exact h

theorem Meets.bind {post' : β → Prop} (h : x.Meets good post) (hf : ∀ a, post a → (f a).Meets good post') :
    (x >>= f).Meets good post' := by
  cases x with
  | ok a => exact hf a h
  | error e => exact h

theorem Meets.map {post : β → Prop} {f : α → β} (h : x.Meets good fun a => post (f a)) : (f <$> x).Meets good post := by
  cases x with
  | ok a => exact h
  | error e => exact h

theorem Meets.foldlM {inv : β → Prop} {step : β → α → Except ε β} {b : β} (hb : inv b)
    (hstep : ∀ b, ∀ a ∈ l, inv b → (step b a).Meets good inv) : (l.foldlM step b).Meets good inv := by
  induction l generalizing b with
  | nil => exact hb
  | cons a l ih =>
    rw [foldlM_cons]
    exact (hstep b a mem_cons_self hb).bind fun b' hb' => ih hb' fun b'' a' ha' => hstep b'' a' (mem_cons_of_mem _ ha')

theorem Meets.mapM {R : α → β → Prop} (h : ∀ a ∈ l, (f a).Meets good (R a)) : (l.mapM f).Meets good fun m => Forall₂ R l m := by
  induction l with
  | nil => exact .nil
  | cons a l ih =>
    rw [mapM_cons]
    refine (h a mem_cons_self).bind fun b hb => ?_
    refine (ih fun a' ha' => h a' (mem_cons_of_mem _ ha')).bind fun m hm => ?_
    exact .cons hb hm

end Except
