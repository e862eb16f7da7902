import Mathlib.Data.List.Basic

/-!
# Readers of byte strings

A reader takes bytes from the left of what is left, or fails. `ReadsBack r b a` says that `r` takes
exactly the bytes `b` and returns `a`, whatever follows them. The rules follow the readers:
sequence, and the loop that reads a number of items one after another. A reader is
`SelfDelimiting` when what it took decides its result and fails once it is cut short, and
`Yields` says what is true of all it returns.
-/

set_option autoImplicit false

namespace Rro.Library

/-- A reader that fails with an `ε`. -/
abbrev StreamReader (ε α : Type) := StateT (List UInt8) (Except ε) α

variable {ε α β : Type}

/-- A number of items, one after another. -/
def StreamReader.times (r : StreamReader ε α) : ℕ → StreamReader ε (List α)
  | 0 => pure []
  | n + 1 => do
    let a ← r
    let as ← StreamReader.times r n
    pure (a :: as)

/-- The reader takes exactly these bytes. -/
def ReadsBack (r : StreamReader ε α) (b : List UInt8) (a : α) : Prop :=
  ∀ rest, r (b ++ rest) = .ok (a, rest)

/-- A reader that reads nothing reads back nothing. -/
theorem reads_pure (a : α) : ReadsBack (pure a : StreamReader ε α) [] a := fun _ => rfl

/-- **Sequence.** -/
theorem ReadsBack.bind {r : StreamReader ε α} {f : α → StreamReader ε β} {b d : List UInt8} {a : α} {c : β}
    (h : ReadsBack r b a) (hf : ReadsBack (f a) d c) : ReadsBack (r >>= f) (b ++ d) c := by
  intro rest
  rw [List.append_assoc]
  calc (r >>= f) (b ++ (d ++ rest))
      = (r (b ++ (d ++ rest)) >>= fun x => f x.1 x.2) := rfl
    _ = f a (d ++ rest) := by rw [h]; rfl
    _ = .ok (c, rest) := hf rest

/-- A sequence that reads nothing more. -/
theorem ReadsBack.finish {r : StreamReader ε α} {f : α → StreamReader ε β} {b : List UInt8} {a : α} {c : β}
    (h : ReadsBack r b a) (hf : ReadsBack (f a) [] c) : ReadsBack (r >>= f) b c := by
  have hbind := h.bind hf
  rwa [List.append_nil] at hbind

/-- A failure after what was read. -/
theorem ReadsBack.bind_error {r : StreamReader ε α} {f : α → StreamReader ε β} {b d : List UInt8} {a : α} {e : ε}
    (h : ReadsBack r b a) (hf : f a d = .error e) : (r >>= f) (b ++ d) = .error e :=
  calc (r >>= f) (b ++ d)
      = (r (b ++ d) >>= fun x => f x.1 x.2) := rfl
    _ = f a d := by rw [h]; rfl
    _ = .error e := hf

/-- A result made of what was read last. -/
theorem ReadsBack.result {r : StreamReader ε α} {b : List UInt8} {a : α} (h : ReadsBack r b a) (f : α → β) :
    ReadsBack (r >>= fun a => pure (f a)) b (f a) :=
  h.finish (reads_pure (f a))

/-- **Loop.** Items whose encodings the reader takes. -/
theorem reads_times {r : StreamReader ε α} {enc : α → List UInt8} {as : List α}
    (h : ∀ a ∈ as, ReadsBack r (enc a) a) :
    ReadsBack (StreamReader.times r as.length) (as.flatMap enc) as := by
  induction as with
  | nil => exact reads_pure []
  | cons a as ih =>
    rw [List.flatMap_cons]
    exact (h a List.mem_cons_self).bind
      ((ih fun x hx => h x (List.mem_cons_of_mem _ hx)).result (a :: ·))

/-- A reader that takes all of a byte string. -/
theorem ReadsBack.all {r : StreamReader ε α} {b : List UInt8} {a : α} (h : ReadsBack r b a) :
    r b = .ok (a, []) := by
  have hrest := h []
  rwa [List.append_nil] at hrest

/-! ## Readers with an end of their own -/

/-- What the reader took decides its result, whatever follows; cut short, it fails with `e`. -/
def SelfDelimiting (e : ε) (r : StreamReader ε α) : Prop :=
  ∀ b a rest, r b = .ok (a, rest) → ∃ c, b = c ++ rest ∧ ReadsBack r c a ∧
    ∀ p, p <+: c → p ≠ c → r p = .error e

/-- All that the reader returns is as `P` says. -/
def Yields (r : StreamReader ε α) (P : α → Prop) : Prop :=
  ∀ b a rest, r b = .ok (a, rest) → P a

variable {e : ε} {r : StreamReader ε α} {f : α → StreamReader ε β} {P : α → Prop} {Q : β → Prop}

/-- A chain of two readers succeeds exactly when each does, the second where the first ended. -/
theorem bind_eq_ok {b : List UInt8} {c : β} {rest : List UInt8} :
    (r >>= f) b = .ok (c, rest) ↔ ∃ a t, r b = .ok (a, t) ∧ f a t = .ok (c, rest) := by
  have hbind : (r >>= f) b = (r b >>= fun x => f x.1 x.2) := rfl
  rw [hbind]
  cases hr : r b with
  | error err =>
    refine iff_of_false (fun h => nomatch h) ?_
    rintro ⟨a, t, h, -⟩
    cases h
  | ok x =>
    constructor
    · exact fun h => ⟨x.1, x.2, rfl, h⟩
    · rintro ⟨a, t, h, hf⟩
      cases h
      exact hf

/-- A reader that reads nothing is self-delimiting. -/
theorem selfDelimiting_pure (a : α) : SelfDelimiting e (pure a : StreamReader ε α) := by
  intro b x rest h
  obtain ⟨rfl, rfl⟩ := Prod.mk.inj (Except.ok.inj h)
  refine ⟨[], rfl, reads_pure a, fun p hp hne => absurd (List.prefix_nil.mp hp) hne⟩

/-- A reader that fails accepts nothing, so it is self-delimiting. -/
theorem selfDelimiting_throw (e' : ε) : SelfDelimiting e (throw e' : StreamReader ε α) :=
  fun _ _ _ h => nomatch h

/-- **Sequence**: a cut falls into the first part, or past it into the second. -/
theorem SelfDelimiting.bind (hr : SelfDelimiting e r) (hf : ∀ a, SelfDelimiting e (f a)) :
    SelfDelimiting e (r >>= f) := by
  intro b c rest h
  obtain ⟨a, t, hra, hfa⟩ := bind_eq_ok.mp h
  obtain ⟨u, rfl, hreads, hcut⟩ := hr b a t hra
  obtain ⟨v, rfl, hreads', hcut'⟩ := hf a t c rest hfa
  refine ⟨u ++ v, (List.append_assoc u v rest).symm, hreads.bind hreads', fun p hp hne => ?_⟩
  rcases List.prefix_or_prefix_of_prefix hp (List.prefix_append u v) with hpu | ⟨q, rfl⟩
  · by_cases hall : p = u
    · have hvne : [] ≠ v := by
        rintro rfl
        exact hne (by rw [hall, List.append_nil])
      have herr := hreads.bind_error (hcut' [] List.nil_prefix hvne)
      rwa [List.append_nil, ← hall] at herr
    · calc (r >>= f) p = (r p >>= fun x => f x.1 x.2) := rfl
        _ = .error e := by rw [hcut p hpu hall]; rfl
  · apply hreads.bind_error
    apply hcut' q ((List.prefix_append_right_inj u).mp hp)
    rintro rfl
    exact hne rfl

/-- A result made of what was read. -/
theorem SelfDelimiting.result (hr : SelfDelimiting e r) (g : α → β) :
    SelfDelimiting e (r >>= fun a => pure (g a)) :=
  hr.bind fun a => selfDelimiting_pure (g a)

/-- **Loop.** -/
theorem SelfDelimiting.times (hr : SelfDelimiting e r) (n : ℕ) :
    SelfDelimiting e (StreamReader.times r n) := by
  induction n with
  | zero => exact selfDelimiting_pure []
  | succ n ih => exact hr.bind fun a => ih.result (a :: ·)

/-- A reader that reads nothing yields its value. -/
theorem yields_pure {a : α} (h : P a) : Yields (pure a : StreamReader ε α) P := by
  intro b x rest hx
  obtain ⟨rfl, -⟩ := Prod.mk.inj (Except.ok.inj hx)
  exact h

/-- A reader that fails yields nothing. -/
theorem yields_throw (e : ε) : Yields (throw e : StreamReader ε α) P := fun _ _ _ h => nomatch h

/-- **Sequence.** -/
theorem Yields.bind (hr : Yields r P) (hf : ∀ a, P a → Yields (f a) Q) : Yields (r >>= f) Q := by
  intro b c rest h
  obtain ⟨a, t, hra, hfa⟩ := bind_eq_ok.mp h
  exact hf a (hr b a t hra) t c rest hfa

/-- **Loop**: as many items as asked for. -/
theorem Yields.times (hr : Yields r P) (n : ℕ) :
    Yields (StreamReader.times r n) fun as => as.length = n ∧ ∀ a ∈ as, P a := by
  induction n with
  | zero => exact yields_pure ⟨rfl, by simp⟩
  | succ n ih =>
    refine hr.bind fun a ha => ih.bind fun as has => yields_pure ?_
    exact ⟨by rw [List.length_cons, has.1], List.forall_mem_cons.mpr ⟨ha, has.2⟩⟩

end Rro.Library
