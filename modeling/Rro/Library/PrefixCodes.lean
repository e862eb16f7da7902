import Mathlib.Data.List.Basic

/-!
# Texts that can be read back

A text is read back from the left when the end of each of its pieces can be seen.
Three ways of seeing it: the piece ends where the first delimiter comes
(`split_at_delimiter`), it is followed by a closing symbol that its code never
starts with (`closed_inj`), or it is one of a list separated by a delimiter
(`separated_map_inj`). `ReadableBefore` says that the pieces of a family are
determined, with the rest of the text, whenever a delimiter follows them. Lines are
told apart by the padding in front of them (`padded_inj`).
-/

set_option autoImplicit false

namespace Rro.Library

section PrefixCodes

variable {α β : Type}

/-- The text starts with a symbol of the given kind. -/
def Heads (D : β → Prop) (s : List β) : Prop := ∃ c r, s = c :: r ∧ D c

/-- A text headed by a character. -/
theorem heads_cons {D : β → Prop} {c : β} (hc : D c) (r : List β) : Heads D (c :: r) :=
  ⟨c, r, rfl, hc⟩

/-- **The first delimiter** splits a text. -/
theorem split_at_delimiter {D : β → Prop} {p q s t : List β} (hp : ∀ c ∈ p, ¬ D c)
    (hq : ∀ c ∈ q, ¬ D c) (hs : Heads D s) (ht : Heads D t) (h : p ++ s = q ++ t) :
    p = q ∧ s = t := by
  induction p generalizing q with
  | nil =>
    obtain ⟨c, r, rfl, hc⟩ := hs
    cases q with
    | nil => exact ⟨rfl, h⟩
    | cons d q =>
      obtain ⟨rfl, -⟩ := List.cons.inj h
      exact absurd hc (hq c List.mem_cons_self)
  | cons c p ih =>
    cases q with
    | nil =>
      obtain ⟨d, r, rfl, hd⟩ := ht
      obtain ⟨rfl, -⟩ := List.cons.inj h
      exact absurd hd (hp c List.mem_cons_self)
    | cons d q =>
      obtain ⟨rfl, hrest⟩ := List.cons.inj h
      obtain ⟨rfl, rfl⟩ := ih (fun e he => hp e (List.mem_cons_of_mem _ he))
        (fun e he => hq e (List.mem_cons_of_mem _ he)) hrest
      exact ⟨rfl, rfl⟩

/-- A code whose words are read from the left without looking further. -/
def PrefixCode (code : α → List β) : Prop :=
  ∀ a b s t, code a ++ s = code b ++ t → a = b ∧ s = t

/-- **Words up to a closing symbol** that starts none of them. -/
theorem closed_inj {code : α → List β} (hcode : PrefixCode code) {close : β}
    (hclose : ∀ a, ∃ c r, code a = c :: r ∧ c ≠ close) {as bs : List α} {s t : List β}
    (h : as.flatMap code ++ close :: s = bs.flatMap code ++ close :: t) : as = bs ∧ s = t := by
  induction as generalizing bs with
  | nil =>
    cases bs with
    | nil => exact ⟨rfl, (List.cons.inj h).2⟩
    | cons b bs =>
      obtain ⟨c, r, hb, hc⟩ := hclose b
      rw [List.flatMap_nil, List.flatMap_cons, hb] at h
      exact absurd (List.cons.inj h).1.symm hc
  | cons a as ih =>
    cases bs with
    | nil =>
      obtain ⟨c, r, ha, hc⟩ := hclose a
      rw [List.flatMap_nil, List.flatMap_cons, ha] at h
      exact absurd (List.cons.inj h).1 hc
    | cons b bs =>
      rw [List.flatMap_cons, List.flatMap_cons, List.append_assoc, List.append_assoc] at h
      obtain ⟨rfl, hrest⟩ := hcode _ _ _ _ h
      obtain ⟨rfl, rfl⟩ := ih hrest
      exact ⟨rfl, rfl⟩

/-- The pieces for which `ok` holds are determined, with the rest of the text, when a delimiter
    follows them. -/
def ReadableBefore (D : β → Prop) (ok : α → Prop) (code : α → List β) : Prop :=
  ∀ a b s t, ok a → ok b → Heads D s → Heads D t → code a ++ s = code b ++ t → a = b ∧ s = t

/-- What follows a piece of a separated list. -/
private theorem heads_separated {D : β → Prop} {code : α → List β} {sep : β} (hsep : D sep)
    (as : List α) {s : List β} (hs : Heads (fun c => D c ∧ c ≠ sep) s) :
    Heads D (as.flatMap (fun a => sep :: code a) ++ s) := by
  cases as with
  | nil =>
    obtain ⟨c, r, rfl, hc⟩ := hs
    exact heads_cons hc.1 r
  | cons a as => exact heads_cons hsep _

/-- The pieces after the first of a separated list. -/
private theorem separated_inj {D : β → Prop} {ok : α → Prop} {code : α → List β}
    (hcode : ReadableBefore D ok code) {sep : β} (hsep : D sep) {as bs : List α} {s t : List β}
    (has : ∀ a ∈ as, ok a) (hbs : ∀ b ∈ bs, ok b)
    (hs : Heads (fun c => D c ∧ c ≠ sep) s) (ht : Heads (fun c => D c ∧ c ≠ sep) t)
    (h : as.flatMap (fun a => sep :: code a) ++ s = bs.flatMap (fun b => sep :: code b) ++ t) :
    as = bs ∧ s = t := by
  induction as generalizing bs with
  | nil =>
    cases bs with
    | nil => exact ⟨rfl, h⟩
    | cons b bs =>
      obtain ⟨c, r, rfl, -, hc⟩ := hs
      exact absurd (List.cons.inj h).1 hc
  | cons a as ih =>
    cases bs with
    | nil =>
      obtain ⟨c, r, rfl, -, hc⟩ := ht
      exact absurd (List.cons.inj h).1.symm hc
    | cons b bs =>
      rw [List.flatMap_cons, List.flatMap_cons, List.append_assoc, List.append_assoc,
        List.cons_append, List.cons_append] at h
      obtain ⟨rfl, hrest⟩ := hcode _ _ _ _ (has a List.mem_cons_self) (hbs b List.mem_cons_self)
        (heads_separated hsep as hs) (heads_separated hsep bs ht) (List.cons.inj h).2
      obtain ⟨rfl, rfl⟩ := ih (fun x hx => has x (List.mem_cons_of_mem _ hx))
        (fun x hx => hbs x (List.mem_cons_of_mem _ hx)) hrest
      exact ⟨rfl, rfl⟩

/-- Pieces separated by a symbol. -/
def separated (sep : β) : List (List β) → List β
  | [] => []
  | first :: parts => first ++ parts.flatMap fun p => sep :: p

/-- **A separated list** of pieces, up to a delimiter that is not the separator. -/
theorem separated_map_inj {D : β → Prop} {ok : α → Prop} {code : α → List β}
    (hcode : ReadableBefore D ok code) {sep : β} (hsep : D sep) {as bs : List α} {s t : List β}
    (hane : as ≠ []) (hbne : bs ≠ []) (has : ∀ a ∈ as, ok a) (hbs : ∀ b ∈ bs, ok b)
    (hs : Heads (fun c => D c ∧ c ≠ sep) s) (ht : Heads (fun c => D c ∧ c ≠ sep) t)
    (h : separated sep (as.map code) ++ s = separated sep (bs.map code) ++ t) :
    as = bs ∧ s = t := by
  obtain ⟨a, as, rfl⟩ := List.exists_cons_of_ne_nil hane
  obtain ⟨b, bs, rfl⟩ := List.exists_cons_of_ne_nil hbne
  have hflat : ∀ as : List α, (as.map code).flatMap (fun p => sep :: p) =
      as.flatMap fun a => sep :: code a := fun as => List.flatMap_map ..
  rw [List.map_cons, List.map_cons, separated, separated, hflat, hflat, List.append_assoc,
    List.append_assoc] at h
  obtain ⟨rfl, hrest⟩ := hcode _ _ _ _ (has a List.mem_cons_self) (hbs b List.mem_cons_self)
    (heads_separated hsep as hs) (heads_separated hsep bs ht) h
  obtain ⟨rfl, rfl⟩ := separated_inj hcode hsep (fun x hx => has x (List.mem_cons_of_mem _ hx))
    (fun x hx => hbs x (List.mem_cons_of_mem _ hx)) hs ht hrest
  exact ⟨rfl, rfl⟩

/-- A line: padding, and a text that starts with something else. -/
theorem padded_inj {pad : β} {m n : ℕ} {c d : β} {s t : List β} (hc : c ≠ pad) (hd : d ≠ pad)
    (h : List.replicate m pad ++ c :: s = List.replicate n pad ++ d :: t) :
    m = n ∧ c = d ∧ s = t := by
  induction m generalizing n with
  | zero =>
    cases n with
    | zero =>
      obtain ⟨hcd, hst⟩ := List.cons.inj h
      exact ⟨rfl, hcd, hst⟩
    | succ n =>
      rw [List.replicate_succ] at h
      exact absurd (List.cons.inj h).1 hc
  | succ m ih =>
    cases n with
    | zero =>
      rw [List.replicate_succ] at h
      exact absurd (List.cons.inj h).1.symm hd
    | succ n =>
      rw [List.replicate_succ, List.replicate_succ] at h
      obtain ⟨rfl, hcd, hst⟩ := ih (List.cons.inj h).2
      exact ⟨rfl, hcd, hst⟩

/-- The text is empty or its first line is padded by less than `n`. -/
def PaddedBelow (pad : β) (n : ℕ) (s : List β) : Prop :=
  s = [] ∨ ∃ m c r, m < n ∧ c ≠ pad ∧ s = List.replicate m pad ++ c :: r

/-- Less padding than one depth is less than a greater one. -/
theorem PaddedBelow.mono {pad : β} {m n : ℕ} {s : List β} (h : PaddedBelow pad m s) (hmn : m ≤ n) :
    PaddedBelow pad n s := by
  rcases h with rfl | ⟨k, c, r, hk, hc, rfl⟩
  · exact .inl rfl
  · exact .inr ⟨k, c, r, by omega, hc, rfl⟩

/-- A line is not part of a text padded by less. -/
theorem PaddedBelow.ne {pad : β} {n : ℕ} {s : List β} (h : PaddedBelow pad n s) {c : β}
    (hc : c ≠ pad) (r : List β) : List.replicate n pad ++ c :: r ≠ s := by
  intro heq
  rcases h with rfl | ⟨k, d, r', hk, hd, rfl⟩
  · simp at heq
  · obtain ⟨rfl, -⟩ := padded_inj hc hd heq
    omega

end PrefixCodes

end Rro.Library
