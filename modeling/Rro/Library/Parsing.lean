import Mathlib.Data.List.Basic

/-!
# Rules for recursive descent

A parser is a state monad over the tokens that are left. `Parses kind p ks follow a` says that `p`
reads exactly the tokens of the kinds `ks` and returns `a`, whenever another token of a kind
in `follow` comes next. The rules compose parsers as the monad does, each reading its own
kinds; the follow set of the first is met by the first kind the second one reads.
-/

set_option autoImplicit false

namespace Rro.Library

section Parsing

variable {τ κ ε α β : Type} (kind : τ → κ)

/-- The parser reads the tokens of these kinds, up to a token of a kind that may follow. -/
def Parses (p : StateT (List τ) (Except ε) α) (ks : List κ) (follow : κ → Prop) (a : α) : Prop :=
  ∀ (pre : List τ) (next : τ) (rest : List τ), pre.map kind = ks → follow (kind next) →
    p (pre ++ next :: rest) = .ok (a, next :: rest)

variable {kind}

/-- A parser that reads nothing. -/
theorem parses_pure (follow : κ → Prop) (a : α) :
    Parses kind (pure a : StateT (List τ) (Except ε) α) [] follow a := by
  intro pre next rest hpre _
  rw [List.map_eq_nil_iff.mp hpre]
  rfl

/-- **Sequence.** -/
theorem Parses.bind {p : StateT (List τ) (Except ε) α} {f : α → StateT (List τ) (Except ε) β}
    {ks ks' : List κ} {follow follow' : κ → Prop} {a : α} {b : β} (hp : Parses kind p ks follow' a)
    (hf : Parses kind (f a) ks' follow b) (hnext : ∀ k, follow k → follow' (ks'.headD k)) :
    Parses kind (p >>= f) (ks ++ ks') follow b := by
  intro pre next rest hpre hfollow
  obtain ⟨pre₁, pre₂, rfl, h₁, h₂⟩ := List.map_eq_append_iff.mp hpre
  have hfirst : p (pre₁ ++ (pre₂ ++ next :: rest)) = .ok (a, pre₂ ++ next :: rest) := by
    cases pre₂ with
    | nil =>
      subst h₂
      exact hp pre₁ next rest h₁ (hnext _ hfollow)
    | cons t pre₂ =>
      subst h₂
      exact hp pre₁ t (pre₂ ++ next :: rest) h₁ (hnext _ hfollow)
  rw [List.append_assoc]
  calc (p >>= f) (pre₁ ++ (pre₂ ++ next :: rest))
      = (p (pre₁ ++ (pre₂ ++ next :: rest)) >>= fun r => f r.1 r.2) := rfl
    _ = f a (pre₂ ++ next :: rest) := by rw [hfirst]; rfl
    _ = .ok (b, next :: rest) := hf pre₂ next rest h₂ hfollow

/-- Sequence after a parser that does not look further than it reads. -/
theorem Parses.seq {p : StateT (List τ) (Except ε) α} {f : α → StateT (List τ) (Except ε) β}
    {ks m : List κ} {follow : κ → Prop} {a : α} {b : β}
    (hp : Parses kind p ks (fun _ => True) a) (hf : Parses kind (f a) m follow b) :
    Parses kind (p >>= f) (ks ++ m) follow b :=
  hp.bind hf fun _ _ => trivial

/-- Mapping the result of a parser. -/
theorem Parses.map {p : StateT (List τ) (Except ε) α} {ks : List κ} {follow : κ → Prop} {a : α}
    (hp : Parses kind p ks follow a) (f : α → β) : Parses kind (f <$> p) ks follow (f a) := by
  intro pre next rest hpre hfollow
  calc (f <$> p) (pre ++ next :: rest)
      = (p (pre ++ next :: rest) >>= fun r => pure (f r.1, r.2)) := rfl
    _ = .ok (f a, next :: rest) := by rw [hp pre next rest hpre hfollow]; rfl

/-- A result made of another. -/
theorem Parses.result {p : StateT (List τ) (Except ε) α} {ks : List κ} {follow : κ → Prop} {a : α}
    (hp : Parses kind p ks follow a) (f : α → β) :
    Parses kind (p >>= fun a => pure (f a)) ks follow (f a) := by
  have hbind := Parses.bind (f := fun a => pure (f a)) hp (parses_pure follow (f a)) fun _ hk => hk
  rwa [List.append_nil] at hbind

/-- A parser that stops before some tokens stops before fewer of them. -/
theorem Parses.mono {p : StateT (List τ) (Except ε) α} {ks : List κ} {follow follow' : κ → Prop}
    {a : α} (hp : Parses kind p ks follow a) (h : ∀ k, follow' k → follow k) :
    Parses kind p ks follow' a :=
  fun pre next rest hpre hfollow => hp pre next rest hpre (h _ hfollow)

/-- **A parser with a bound** taken from the number of tokens left. -/
theorem parses_bounded {f : ℕ → StateT (List τ) (Except ε) α} {ks : List κ} {follow : κ → Prop}
    {a : α} (h : ∀ n, ks.length < n → Parses kind (f n) ks follow a) :
    Parses kind (do let tokens ← get; f tokens.length) ks follow a := by
  intro pre next rest hpre hfollow
  have hlen : ks.length < (pre ++ next :: rest).length := by
    rw [← hpre, List.length_map, List.length_append, List.length_cons]
    omega
  exact h _ hlen pre next rest hpre hfollow

end Parsing

end Rro.Library
