import Mathlib.Data.List.Infix
import Rro.Library.SeparatedKeys

/-!
# Lines over a byte stream

A sender writes texts, each followed by a newline. The bytes arrive in pieces of any size, and a
stream may be cut so that its end is lost. The reader takes whole lines from what has arrived, and
at the end of the stream what is left of the last one. `Conveys p texts` says that the texts are
what the reader has still to take: it takes them in order (`Conveys.nextLine`), and of a text that
was cut only a beginning. `Delivers enc p written taken` says the same of items that are written
as texts: those taken are the first of those written, and all of them once nothing is left.
-/

set_option autoImplicit false

namespace Rro.Library

/-- The byte that ends a line. -/
def newline : UInt8 := 10

/-- The byte dropped with the newline after it. -/
def carriageReturn : UInt8 := 13

/-- One direction of a connection: what was written and has not arrived, what has arrived and
    was not read, and whether no more will be written. -/
structure Pipe where
  flight : List UInt8
  buffer : List UInt8
  ended : Bool
deriving DecidableEq

/-- The bytes of some texts, one a line. -/
def framed (texts : List (List UInt8)) : List UInt8 := texts.flatMap fun t => t ++ [newline]

/-- A text that makes one line. -/
def OneLine (t : List UInt8) : Prop := newline ∉ t ∧ t.getLast? ≠ some carriageReturn

namespace Pipe

/-- A pipe nothing was written to. -/
def fresh : Pipe := ⟨[], [], false⟩

/-- Bytes written, which are lost when the stream has ended. -/
def write (p : Pipe) (b : List UInt8) : Pipe :=
  if p.ended then p else { p with flight := p.flight ++ b }

/-- Some of the bytes arrive. -/
def deliver (p : Pipe) (n : ℕ) : Pipe :=
  { p with flight := p.flight.drop n, buffer := p.buffer ++ p.flight.take n }

/-- The stream ends, and of what is in flight only so many bytes will arrive. -/
def cut (p : Pipe) (n : ℕ) : Pipe := { p with flight := p.flight.take n, ended := true }

/-- The stream ends after what was written. -/
def close (p : Pipe) : Pipe := { p with ended := true }

/-- The next line without its newline and a carriage return before it, or at the end what is
    left, and nothing when that is empty. `none` while the reader has to wait. -/
def nextLine (p : Pipe) : Option (Option (List UInt8) × Pipe) :=
  if newline ∈ p.buffer then
    let line := p.buffer.takeWhile (· ≠ newline)
    some (some (if line.getLast? = some carriageReturn then line.dropLast else line),
      { p with buffer := afterFirst newline p.buffer })
  else if p.ended = true ∧ p.flight = [] then
    some (if p.buffer = [] then none else some p.buffer, { p with buffer := [] })
  else none

/-- Nothing was written that was not read. -/
def Empty (p : Pipe) : Prop := p.buffer = [] ∧ p.flight = []

/-- The texts are what the reader has to take: their bytes as long as the stream is whole, and a
    beginning of them when it was cut. -/
structure Conveys (p : Pipe) (texts : List (List UInt8)) : Prop where
  start : p.buffer ++ p.flight <+: framed texts
  whole : p.ended = false → p.buffer ++ p.flight = framed texts

end Pipe

/-! ## Bytes and lines -/

/-- No lines. -/
@[simp] theorem framed_nil : framed [] = [] := rfl

/-- The first line, its end, and the other lines. -/
theorem framed_cons (t : List UInt8) (texts : List (List UInt8)) :
    framed (t :: texts) = t ++ newline :: framed texts := by
  simp [framed]

/-- Joined lines. -/
theorem framed_append (texts more : List (List UInt8)) :
    framed (texts ++ more) = framed texts ++ framed more :=
  List.flatMap_append

/-- A line that is whole is the first text. -/
theorem first_line {x r : List UInt8} {texts : List (List UInt8)}
    (htexts : ∀ t ∈ texts, OneLine t) (hx : newline ∉ x)
    (h : x ++ newline :: r <+: framed texts) :
    ∃ rest, texts = x :: rest ∧ r <+: framed rest := by
  obtain ⟨s, hs⟩ := h
  cases texts with
  | nil => simp at hs
  | cons t rest =>
    have ht : newline ∉ t := (htexts t List.mem_cons_self).1
    rw [framed_cons, List.append_assoc, List.cons_append] at hs
    obtain ⟨rfl, hr⟩ := first_segment_inj hx ht hs
    exact ⟨rest, rfl, s, hr⟩

/-- Bytes without a newline are a beginning of the first text. -/
theorem first_part {x : List UInt8} {texts : List (List UInt8)} (hx : newline ∉ x) (hne : x ≠ [])
    (h : x <+: framed texts) : ∃ t rest, texts = t :: rest ∧ x <+: t := by
  cases texts with
  | nil => exact absurd (List.prefix_nil.mp h) hne
  | cons t rest =>
    refine ⟨t, rest, rfl, ?_⟩
    rw [framed_cons] at h
    cases List.prefix_or_prefix_of_prefix h (List.prefix_append t _) with
    | inl hpre => exact hpre
    | inr hpre =>
      obtain ⟨z, rfl⟩ := hpre
      cases z with
      | nil => rw [List.append_nil]
      | cons c z =>
        -- what follows the text is the newline, which the bytes do not have
        rw [List.prefix_append_right_inj, List.cons_prefix_cons] at h
        apply absurd h.1
        rintro rfl
        exact hx (List.mem_append_right t List.mem_cons_self)

/-! ## What the reader takes -/

namespace Pipe

variable {p q : Pipe} {texts : List (List UInt8)}

/-- A pipe to which nothing was written. -/
theorem conveys_fresh : Conveys fresh [] := ⟨List.prefix_rfl, fun _ => rfl⟩

/-- **A line is written.** -/
theorem Conveys.write (h : p.Conveys texts) (t : List UInt8) :
    (p.write (t ++ [newline])).Conveys (texts ++ [t]) := by
  have hframed : framed (texts ++ [t]) = framed texts ++ (t ++ [newline]) := by
    rw [framed_append, framed_cons, framed_nil]
  unfold Pipe.write
  split
  · rename_i hended
    refine ⟨h.start.trans ?_, fun hopen => ?_⟩
    · rw [hframed]
      exact List.prefix_append _ _
    · rw [hended] at hopen
      cases hopen
  · rename_i hopen
    have hwhole : p.buffer ++ (p.flight ++ (t ++ [newline])) = framed (texts ++ [t]) := by
      rw [← List.append_assoc, h.whole (by simpa using hopen), hframed]
    exact ⟨hwhole ▸ List.prefix_rfl, fun _ => hwhole⟩

/-- Writing does not end a pipe. -/
theorem write_ended (p : Pipe) (b : List UInt8) : (p.write b).ended = p.ended := by
  unfold write
  split <;> rfl

/-- Delivering moves bytes and loses none. -/
theorem deliver_bytes (p : Pipe) (n : ℕ) :
    (p.deliver n).buffer ++ (p.deliver n).flight = p.buffer ++ p.flight := by
  simp [deliver]

/-- Bytes arrive. -/
theorem Conveys.deliver (h : p.Conveys texts) (n : ℕ) : (p.deliver n).Conveys texts := by
  constructor
  · rw [deliver_bytes]
    exact h.start
  · rw [deliver_bytes]
    exact h.whole

/-- The end of the stream is lost. -/
theorem Conveys.cut (h : p.Conveys texts) (n : ℕ) : (p.cut n).Conveys texts where
  start := by
    apply List.IsPrefix.trans _ h.start
    exact (List.prefix_append_right_inj p.buffer).mpr (List.take_prefix n p.flight)
  whole := by
    intro hopen
    cases hopen

/-- The stream ends. -/
theorem Conveys.close (h : p.Conveys texts) : p.close.Conveys texts where
  start := h.start
  whole := by
    intro hopen
    cases hopen

/-- Nothing of a stream that was lost is taken. -/
theorem conveys_of_empty (hempty : p.Empty) (hended : p.ended = true) (texts : List (List UInt8)) :
    p.Conveys texts := by
  constructor
  · rw [hempty.1, hempty.2]
    exact List.nil_prefix
  · rw [hended]
    intro hopen
    cases hopen

/-- A line and what follows its newline. -/
theorem takeWhile_newline {b : List UInt8} (h : newline ∈ b) :
    newline ∉ b.takeWhile (· ≠ newline) ∧
      b = b.takeWhile (· ≠ newline) ++ newline :: afterFirst newline b := by
  obtain ⟨x, r, rfl, hx⟩ := List.eq_append_cons_of_mem h
  have htake : (x ++ newline :: r).takeWhile (· ≠ newline) = x := by
    rw [List.takeWhile_append_of_pos, List.takeWhile_cons_of_neg (by simp), List.append_nil]
    intro c hc
    have hne : c ≠ newline := fun he => hx (he ▸ hc)
    simpa using hne
  rw [htake, afterFirst_join newline r hx]
  exact ⟨hx, rfl⟩

/-- Reading leaves open whether more will be written. -/
theorem nextLine_ended {line : Option (List UInt8)} (hline : p.nextLine = some (line, q)) :
    q.ended = p.ended := by
  unfold nextLine at hline
  split at hline
  · cases hline
    rfl
  · split at hline
    · cases hline
      rfl
    · cases hline

/-- **The next line.** It is the first text, or a beginning of it at the end of a stream that was
    cut, after which there is nothing left. -/
theorem Conveys.nextLine (h : p.Conveys texts) (htexts : ∀ t ∈ texts, OneLine t)
    {line : List UInt8} (hline : p.nextLine = some (some line, q)) :
    ∃ t rest, texts = t :: rest ∧ q.Conveys rest ∧
      (line = t ∨ line <+: t ∧ line ≠ [] ∧ q.Empty ∧ q.ended = true) := by
  unfold Pipe.nextLine at hline
  split at hline
  · rename_i hmem
    obtain ⟨hnot, hsplit⟩ := takeWhile_newline hmem
    have hbytes : p.buffer ++ p.flight = p.buffer.takeWhile (· ≠ newline) ++
        newline :: (afterFirst newline p.buffer ++ p.flight) := by
      conv_lhs => rw [hsplit]
      simp
    obtain ⟨rest, htext, hrest⟩ := first_line htexts hnot (hbytes ▸ h.start)
    have hreturn := (htexts _ (htext ▸ List.mem_cons_self)).2
    simp only [if_neg hreturn, Option.some.injEq, Prod.mk.injEq] at hline
    obtain ⟨rfl, rfl⟩ := hline
    refine ⟨_, rest, htext, ⟨hrest, fun hopen => ?_⟩, .inl rfl⟩
    have hwhole := h.whole hopen
    rw [htext, framed_cons, hbytes, List.append_cancel_left_eq, List.cons.injEq] at hwhole
    exact hwhole.2
  · rename_i hnot
    split at hline
    · rename_i hend
      have hstart := h.start
      rw [hend.2, List.append_nil] at hstart
      by_cases hbuffer : p.buffer = []
      · simp [hbuffer] at hline
      · simp only [if_neg hbuffer, Option.some.injEq, Prod.mk.injEq] at hline
        obtain ⟨rfl, rfl⟩ := hline
        obtain ⟨t, rest, rfl, hpre⟩ := first_part hnot hbuffer hstart
        have hempty : Empty { p with buffer := [] } := ⟨rfl, hend.2⟩
        have hrest : Conveys { p with buffer := [] } rest := conveys_of_empty hempty hend.1 rest
        exact ⟨t, rest, rfl, hrest, .inr ⟨hpre, hbuffer, hempty, hend.1⟩⟩
    · cases hline

/-- A text that has arrived is there to be read. -/
theorem Conveys.nextLine_arrived {t : List UInt8} {rest : List (List UInt8)}
    (h : p.Conveys (t :: rest)) (ht : OneLine t) (hopen : p.ended = false)
    (hflight : p.flight = []) :
    ∃ q, p.nextLine = some (some t, q) ∧ q.Conveys rest ∧ q.flight = [] := by
  have hwhole := h.whole hopen
  rw [hflight, List.append_nil, framed_cons] at hwhole
  have hmem : newline ∈ p.buffer := by simp [hwhole]
  obtain ⟨hnot, hsplit⟩ := takeWhile_newline hmem
  obtain ⟨hline, hrest⟩ := first_segment_inj hnot ht.1 (hsplit.symm.trans hwhole)
  refine ⟨{ p with buffer := afterFirst newline p.buffer }, ?_, ⟨?_, fun _ => ?_⟩, hflight⟩
  · simp only [Pipe.nextLine, if_pos hmem, hline, if_neg ht.2]
  · simp [hflight, hrest]
  · simp [hflight, hrest]

/-- The end of a stream. -/
theorem nextLine_end (hline : p.nextLine = some (none, q)) : q.ended = true ∧ q.Empty := by
  unfold Pipe.nextLine at hline
  split at hline
  · simp at hline
  · split at hline
    · rename_i hend
      simp only [Option.some.injEq, Prod.mk.injEq] at hline
      obtain ⟨-, rfl⟩ := hline
      exact ⟨hend.1, rfl, hend.2⟩
    · cases hline

/-- A whole stream with nothing left conveys no more texts. -/
theorem Conveys.drained (h : p.Conveys texts) (hopen : p.ended = false) (hempty : p.Empty) :
    texts = [] := by
  have hwhole := h.whole hopen
  rw [hempty.1, hempty.2] at hwhole
  cases texts with
  | nil => rfl
  | cons t rest => simp [framed_cons] at hwhole

/-! ## Items written as texts -/

section Items

variable {α : Type} {enc : α → List UInt8} {written taken : List α}

/-- The items taken are the first of those written, and the pipe conveys the others. -/
def Delivers (enc : α → List UInt8) (p : Pipe) (written taken : List α) : Prop :=
  ∃ pending, written = taken ++ pending ∧ p.Conveys (pending.map enc)

/-- A fresh pipe delivers what was written to it, nothing. -/
theorem delivers_fresh : fresh.Delivers enc [] [] := ⟨[], rfl, conveys_fresh⟩

/-- An item is written. -/
theorem Delivers.write (h : p.Delivers enc written taken) (a : α) :
    (p.write (enc a ++ [newline])).Delivers enc (written ++ [a]) taken := by
  obtain ⟨pending, rfl, hp⟩ := h
  refine ⟨pending ++ [a], List.append_assoc _ _ _, ?_⟩
  rw [List.map_append]
  exact hp.write (enc a)

/-- Delivering bytes keeps what the pipe delivers. -/
theorem Delivers.deliver (h : p.Delivers enc written taken) (n : ℕ) :
    (p.deliver n).Delivers enc written taken := by
  obtain ⟨pending, hwritten, hp⟩ := h
  exact ⟨pending, hwritten, hp.deliver n⟩

/-- Cutting what is in flight into pieces keeps what the pipe delivers. -/
theorem Delivers.cut (h : p.Delivers enc written taken) (n : ℕ) :
    (p.cut n).Delivers enc written taken := by
  obtain ⟨pending, hwritten, hp⟩ := h
  exact ⟨pending, hwritten, hp.cut n⟩

/-- Closing the writing end keeps what the pipe delivers. -/
theorem Delivers.close (h : p.Delivers enc written taken) :
    p.close.Delivers enc written taken := by
  obtain ⟨pending, hwritten, hp⟩ := h
  exact ⟨pending, hwritten, hp.close⟩

/-- **In order and each once.** -/
theorem Delivers.isPrefix (h : p.Delivers enc written taken) : taken <+: written := by
  obtain ⟨pending, rfl, -⟩ := h
  exact List.prefix_append taken pending

/-- From a pipe whose stream is lost nothing more is taken. -/
theorem delivers_of_empty (hempty : p.Empty) (hended : p.ended = true) (h : taken <+: written) :
    p.Delivers enc written taken := by
  obtain ⟨pending, rfl⟩ := h
  exact ⟨pending, rfl, conveys_of_empty hempty hended _⟩

/-- **The next item.** The line is its text, or a beginning of it after which the stream is
    lost. -/
theorem Delivers.nextLine (h : p.Delivers enc written taken)
    (hone : ∀ a ∈ written, OneLine (enc a)) {line : List UInt8}
    (hline : p.nextLine = some (some line, q)) :
    ∃ a ∈ written, q.Delivers enc written (taken ++ [a]) ∧
      (line = enc a ∨ line <+: enc a ∧ line ≠ [] ∧ q.Delivers enc written taken) := by
  obtain ⟨pending, rfl, hp⟩ := h
  have htexts : ∀ t ∈ pending.map enc, OneLine t := by
    intro t ht
    obtain ⟨a, ha, rfl⟩ := List.mem_map.mp ht
    exact hone a (List.mem_append_right taken ha)
  obtain ⟨t, rest, ht, hq, hcase⟩ := hp.nextLine htexts hline
  cases pending with
  | nil => cases ht
  | cons a pending =>
    rw [List.map_cons, List.cons.injEq] at ht
    obtain ⟨rfl, rfl⟩ := ht
    refine ⟨a, by simp, ⟨pending, by simp, hq⟩, ?_⟩
    apply hcase.imp_right
    rintro ⟨hpre, hne, hempty, hend⟩
    exact ⟨hpre, hne, delivers_of_empty hempty hend (List.prefix_append _ _)⟩

/-- An item that has arrived is there to be taken. -/
theorem Delivers.nextLine_arrived (h : p.Delivers enc written taken)
    (hone : ∀ a ∈ written, OneLine (enc a)) (hopen : p.ended = false) (hflight : p.flight = [])
    (hne : taken ≠ written) :
    ∃ a q, a ∈ written ∧ p.nextLine = some (some (enc a), q) ∧
      q.Delivers enc written (taken ++ [a]) ∧ q.flight = [] := by
  obtain ⟨pending, rfl, hp⟩ := h
  cases pending with
  | nil => exact absurd (List.append_nil taken).symm hne
  | cons a pending =>
    have ha : a ∈ taken ++ a :: pending := by simp
    obtain ⟨q, hline, hq, hqflight⟩ := hp.nextLine_arrived (hone a ha) hopen hflight
    exact ⟨a, q, ha, hline, ⟨pending, by simp, hq⟩, hqflight⟩

/-- Bytes that have all arrived. -/
theorem deliver_all (p : Pipe) : (p.deliver p.flight.length).flight = [] := by
  simp [deliver]

/-- When all bytes have arrived and all items are taken there is nothing left. -/
theorem Delivers.empty (h : p.Delivers enc written taken) (hflight : p.flight = [])
    (hall : taken = written) : p.Empty := by
  obtain ⟨pending, rfl, hp⟩ := h
  have hpending : pending = [] := by simpa using hall
  have hstart := hp.start
  rw [hpending, hflight, List.append_nil, List.map_nil, framed_nil, List.prefix_nil] at hstart
  exact ⟨hstart, hflight⟩

/-- At the end of the stream. -/
theorem Delivers.nextLine_end (h : p.Delivers enc written taken)
    (hline : p.nextLine = some (none, q)) : q.Delivers enc written taken := by
  obtain ⟨hended, hempty⟩ := Pipe.nextLine_end hline
  exact delivers_of_empty hempty hended h.isPrefix

/-- **Nothing is lost.** -/
theorem Delivers.drained (h : p.Delivers enc written taken) (hopen : p.ended = false)
    (hempty : p.Empty) : taken = written := by
  obtain ⟨pending, rfl, hp⟩ := h
  have hpending : pending = [] := List.map_eq_nil_iff.mp (hp.drained hopen hempty)
  rw [hpending, List.append_nil]

end Items

end Pipe

end Rro.Library
