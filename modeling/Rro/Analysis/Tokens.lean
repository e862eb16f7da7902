import Rro.Program.Hmac
import Rro.Program.Tokens

/-!
# Tokens round trip, and authorization is exact

base64url packs three bytes into four characters and loses nothing at any length
(`b64url_round_trip`); its characters never contain the separator, so an issued token has the
three segments that verification splits off. A token is accepted exactly when its claims are
live, in scope and capable enough, and whatever is accepted carries the keyed hash of its first
two segments (`token_authorization`).
-/

set_option autoImplicit false

namespace Rro.Analysis

open Rro.Library Rro.Program

/-! ## Chunks -/

/-- A character of the alphabet stands for its six bits. -/
theorem b64urlChar_spec (n : ℕ) : (b64urlChar n).toNat < 128 ∧ b64urlChar n ≠ '.' ∧
    b64urlVal (UInt8.ofNat (b64urlChar n).toNat) = some (n % 64) := by
  have hall : ∀ k < 64, (B64URL.getD k 'A').toNat < 128 ∧ B64URL.getD k 'A' ≠ '.' ∧
      b64urlVal (UInt8.ofNat (B64URL.getD k 'A').toNat) = some k := by decide +kernel
  have hmod : n &&& 63 = n % 64 := Nat.and_two_pow_sub_one_eq_mod n 6
  unfold b64urlChar
  rw [hmod]
  exact hall _ (Nat.mod_lt n (by decide))

/-- Six bits below a number. -/
theorem pack_bits (x : ℕ) {bits : ℕ} (h : bits < 64) : (x <<< 6) ||| bits = x * 64 + bits := by
  rw [← Nat.shiftLeft_add_eq_or_of_lt (i := 6) h, Nat.shiftLeft_eq]

/-- Three bytes as one number. -/
theorem pack_bytes {a b c : ℕ} (h1 : b < 256) (h2 : c < 256) :
    (a <<< 16) ||| (b <<< 8) ||| c = a * 65536 + b * 256 + c := by
  have hlow : b <<< 8 < 2 ^ 16 := by
    rw [Nat.shiftLeft_eq]
    omega
  have hsum : (a <<< 16) ||| (b <<< 8) = (a * 256 + b) <<< 8 := by
    rw [← Nat.shiftLeft_add_eq_or_of_lt hlow]
    simp only [Nat.shiftLeft_eq]
    omega
  rw [hsum, ← Nat.shiftLeft_add_eq_or_of_lt (i := 8) h2, Nat.shiftLeft_eq]
  omega

/-- The low byte of a number. -/
theorem ofNat_eq {n : ℕ} {b : UInt8} (h : n % 256 = b.toNat) : UInt8.ofNat n = b := by
  rw [← UInt8.toNat_inj, UInt8.toNat_ofNat', h]

/-- Characters of the alphabet take one byte each. -/
theorem encode_chars {chars : List Char} (h : ∀ c ∈ chars, ∃ n, c = b64urlChar n) :
    encode chars = chars.map fun c => UInt8.ofNat c.toNat := by
  refine encode_of_ascii fun c hc => ?_
  obtain ⟨n, rfl⟩ := h c hc
  exact (b64urlChar_spec n).1

/-- What a chunk is written with is of the alphabet. -/
theorem mem_encodeChunk {chunk : Bytes} {c : Char} (hc : c ∈ b64urlEncodeChunk chunk) :
    ∃ n, c = b64urlChar n := by
  unfold b64urlEncodeChunk at hc
  dsimp only at hc
  rw [List.mem_append, List.mem_append] at hc
  rcases hc with (hc | hc) | hc
  · simp only [List.mem_cons, List.not_mem_nil, or_false] at hc
    rcases hc with rfl | rfl
    · exact ⟨_, rfl⟩
    · exact ⟨_, rfl⟩
  · split at hc
    · exact ⟨_, List.mem_singleton.mp hc⟩
    · exact absurd hc List.not_mem_nil
  · split at hc
    · exact ⟨_, List.mem_singleton.mp hc⟩
    · exact absurd hc List.not_mem_nil

/-- The byte of a character of the alphabet. -/
def charByte (n : ℕ) : UInt8 := UInt8.ofNat (b64urlChar n).toNat

/-- The characters of a chunk are read back as their bits. -/
theorem decodeChunk_bytes (ns : List ℕ) (hlen : 2 ≤ ns.length) :
    b64urlDecodeChunk (ns.map charByte) =
      let n := ns.foldl (fun acc n => acc * 64 + n % 64) 0 * 2 ^ (6 * (4 - ns.length))
      some ([UInt8.ofNat (n / 2 ^ 16)] ++
        (if 3 ≤ ns.length then [UInt8.ofNat (n / 2 ^ 8)] else []) ++
        if 4 ≤ ns.length then [UInt8.ofNat n] else []) := by
  have hvals : ∀ acc, (ns.map charByte).foldlM (fun n c => do
      let bits ← b64urlVal c
      return (n <<< 6) ||| bits) acc = some (ns.foldl (fun acc n => acc * 64 + n % 64) acc) := by
    clear hlen
    induction ns with
    | nil => exact fun _ => rfl
    | cons n ns ih =>
      intro acc
      have hval : b64urlVal (charByte n) = some (n % 64) := (b64urlChar_spec n).2.2
      rw [List.map_cons, List.foldlM_cons, hval]
      dsimp only [bind, Option.bind, pure]
      rw [pack_bits acc (Nat.mod_lt n (by decide))]
      exact ih _
  unfold b64urlDecodeChunk
  rw [if_neg (by rw [List.length_map]; omega), hvals 0]
  simp only [List.length_map, Nat.shiftLeft_eq, Nat.shiftRight_eq_div_pow, Option.bind_eq_bind,
    Option.bind_some]
  rfl

/-- The characters of a chunk stand for the bits of its bytes. -/
theorem encodeChunk_bytes (chunk : Bytes) :
    let n := (chunk.getD 0 0).toNat * 65536 + (chunk.getD 1 0).toNat * 256 + (chunk.getD 2 0).toNat
    encode (b64urlEncodeChunk chunk) =
      ([n / 2 ^ 18, n / 2 ^ 12] ++ (if 1 < chunk.length then [n / 2 ^ 6] else []) ++
        if 2 < chunk.length then [n] else []).map charByte := by
  have hpack := pack_bytes (a := (chunk.getD 0 0).toNat) (chunk.getD 1 0).toNat_lt
    (chunk.getD 2 0).toNat_lt
  rw [encode_chars fun c hc => mem_encodeChunk hc]
  unfold b64urlEncodeChunk
  dsimp only
  rw [hpack]
  simp only [Nat.shiftRight_eq_div_pow, List.map_append]
  congr 1
  · congr 1
    split
    · rfl
    · rfl
  · split
    · rfl
    · rfl

/-- **A chunk** is unpacked to what was packed. -/
theorem decodeChunk_encodeChunk {c : Bytes} (hne : c ≠ []) (hlen : c.length ≤ 3) :
    b64urlDecodeChunk (encode (b64urlEncodeChunk c)) = some c := by
  rw [encodeChunk_bytes, decodeChunk_bytes _ (by simp)]
  refine congrArg some ?_
  rcases c with - | ⟨b0, - | ⟨b1, - | ⟨b2, - | ⟨b3, rest⟩⟩⟩⟩
  · exact absurd rfl hne
  · have h0 := b0.toNat_lt
    have hz : (0 : UInt8).toNat = 0 := rfl
    refine congrArg (fun b => [b]) (ofNat_eq ?_)
    simp only [List.getD_cons_zero, List.getD_cons_succ, List.getD_nil, List.length_cons,
      List.length_nil, Nat.zero_add, Nat.lt_irrefl, Nat.reduceLT, if_false, List.append_nil,
      List.foldl_cons, List.foldl_nil, hz]
    omega
  · have h0 := b0.toNat_lt
    have h1 := b1.toNat_lt
    have hz : (0 : UInt8).toNat = 0 := rfl
    refine congrArg₂ List.cons (ofNat_eq ?_) (congrArg (fun b => [b]) (ofNat_eq ?_)) <;>
      simp only [List.getD_cons_zero, List.getD_cons_succ, List.getD_nil, List.length_cons,
        List.length_nil, List.cons_append, List.nil_append, Nat.reduceAdd, Nat.reduceLT,
        if_false, if_true, List.append_nil, List.foldl_cons, List.foldl_nil, hz] <;>
      omega
  · have h0 := b0.toNat_lt
    have h1 := b1.toNat_lt
    have h2 := b2.toNat_lt
    refine congrArg₂ List.cons (ofNat_eq ?_) (congrArg₂ List.cons (ofNat_eq ?_)
      (congrArg (fun b => [b]) (ofNat_eq ?_))) <;>
      simp only [List.getD_cons_zero, List.getD_cons_succ, List.length_cons, List.length_nil,
        List.cons_append, List.nil_append, Nat.reduceAdd, Nat.reduceLT, if_true, List.foldl_cons,
        List.foldl_nil] <;>
      omega
  · simp only [List.length_cons] at hlen
    omega

/-! ## Texts of any length -/

/-- So is what bytes are written with. -/
theorem mem_encode {input : Bytes} {c : Char} (hc : c ∈ b64urlEncode input) :
    ∃ n, c = b64urlChar n := by
  induction input using b64urlEncode.induct with
  | case1 b0 b1 b2 input ih =>
    rcases List.mem_append.mp hc with hfirst | hrest
    · exact mem_encodeChunk hfirst
    · exact ih hrest
  | case2 => exact absurd hc List.not_mem_nil
  | case3 chunk hlong hne =>
    rw [b64urlEncode] at hc
    · exact mem_encodeChunk hc
    · exact hlong
    · exact hne

/-- A chunk of less than three bytes becomes less than four characters. -/
theorem length_encodeChunk (chunk : Bytes) :
    (encode (b64urlEncodeChunk chunk)).length = 2 + (if 1 < chunk.length then 1 else 0) +
      if 2 < chunk.length then 1 else 0 := by
  rw [encodeChunk_bytes, List.length_map, List.length_append, List.length_append]
  congr 1
  · congr 1
    split
    · rfl
    · rfl
  · split
    · rfl
    · rfl

/-- **base64url** loses nothing, at any length. -/
theorem b64url_round_trip (input : Bytes) : b64urlDecode (b64urlEncode input) = some input := by
  unfold b64urlDecode
  induction input using b64urlEncode.induct with
  | case1 b0 b1 b2 input ih =>
    have hchunk := decodeChunk_encodeChunk (c := [b0, b1, b2]) (by simp) (Nat.le_refl 3)
    have hlen := length_encodeChunk [b0, b1, b2]
    rw [b64urlEncode, encode_append]
    obtain ⟨c0, c1, c2, c3, hcs⟩ := List.length_eq_four.mp hlen
    rw [hcs] at hchunk ⊢
    simp only [List.cons_append, List.nil_append]
    rw [b64urlDecodeBytes, hchunk, ih]
    rfl
  | case2 => rfl
  | case3 chunk hlong hne =>
    have hpos : chunk ≠ [] := fun h => hne h
    have hshort : chunk.length < 3 := by
      rcases chunk with - | ⟨b0, - | ⟨b1, - | ⟨b2, rest⟩⟩⟩
      · simp
      · simp
      · simp
      · exact absurd rfl (hlong b0 b1 b2 rest)
    have hchunk := decodeChunk_encodeChunk hpos (by omega)
    have hlen := length_encodeChunk chunk
    rw [if_neg (by omega : ¬2 < chunk.length)] at hlen
    have hfew : (encode (b64urlEncodeChunk chunk)).length < 4 := by
      split at hlen
      · omega
      · omega
    have hsome : (encode (b64urlEncodeChunk chunk)).length ≠ 0 := by omega
    rw [b64urlEncode]
    · rw [b64urlDecodeBytes]
      · exact hchunk
      · intro c0 c1 c2 c3 bytes heq
        rw [heq] at hfew
        simp at hfew
        omega
      · intro heq
        exact hsome (by rw [heq]; rfl)
    · exact hlong
    · exact hne

/-! ## Comparison -/

/-- The comparison without branches decides equality. -/
theorem constantTimeEq_iff (a b : Bytes) : constantTimeEq a b = true ↔ a = b := by
  have hfold : ∀ (a b : Bytes) (diff : UInt8), a.length = b.length →
      ((List.zip a b).foldl (fun diff xy => diff ||| (xy.1 ^^^ xy.2)) diff = 0 ↔
        diff = 0 ∧ a = b) := by
    intro a
    induction a with
    | nil =>
      intro b diff hlen
      rw [List.length_eq_zero_iff.mp hlen.symm]
      simp
    | cons x a ih =>
      intro b diff hlen
      cases b with
      | nil => simp at hlen
      | cons y b =>
        rw [List.zip_cons_cons, List.foldl_cons, ih b _ (Nat.succ.inj hlen), UInt8.or_eq_zero_iff,
          UInt8.xor_eq_zero_iff, List.cons.injEq, and_assoc]
  unfold constantTimeEq
  split
  · rename_i hlen
    exact ⟨fun h => Bool.noConfusion h, fun h => absurd (congrArg List.length h) hlen⟩
  · rename_i hlen
    rw [beq_iff_eq, hfold a b 0 (not_not.mp hlen)]
    exact ⟨And.right, fun h => ⟨rfl, h⟩⟩

/-! ## Segments -/

/-- Encoded bytes hold no dot. -/
theorem dotless_encode (input : Bytes) : ∀ c ∈ b64urlEncode input, c ≠ '.' := by
  intro c hc
  obtain ⟨n, rfl⟩ := mem_encode hc
  exact (b64urlChar_spec n).2.1

/-- Three segments without the separator are what joining them splits into. -/
theorem splitOn_three {h p s : List Char} (hh : ∀ c ∈ h, c ≠ '.') (hp : ∀ c ∈ p, c ≠ '.')
    (hs : ∀ c ∈ s, c ≠ '.') : (h ++ '.' :: p ++ '.' :: s).splitOn '.' = [h, p, s] := by
  have hjoin : ['.'].intercalate [h, p, s] = h ++ '.' :: p ++ '.' :: s := by
    simp [List.intercalate]
  rw [← hjoin, List.splitOn_intercalate]
  · intro l hl hmem
    rcases List.mem_cons.mp hl with rfl | hl
    · exact hh _ hmem rfl
    · rcases List.mem_cons.mp hl with rfl | hl
      · exact hp _ hmem rfl
      · rw [List.mem_singleton.mp hl] at hmem
        exact hs _ hmem rfl
  · exact List.cons_ne_nil _ _

section Issue

variable [TokenKit]

/-- A signed token verifies, under the key it was signed with. -/
theorem verify_sign {claims : Claims} (key : Bytes)
    (hserde : TokenKit.claimsFromSlice (TokenKit.claimsToVec claims) = some claims) :
    verifyHs256 (String.ofList (signHs256 claims key)) key = .ok claims := by
  unfold verifyHs256
  rw [String.toList_ofList]
  unfold signHs256
  dsimp only
  rw [splitOn_three (dotless_encode _) (dotless_encode _) (dotless_encode _)]
  dsimp only
  rw [b64url_round_trip, b64url_round_trip]
  dsimp only
  rw [(constantTimeEq_iff _ _).mpr rfl, hserde]
  rfl

/-- Whatever verifies has three segments, the third of them the keyed hash of the others. -/
theorem verify_ok {token : String} {key : Bytes} {claims : Claims}
    (hok : verifyHs256 token key = .ok claims) :
    ∃ h p s, token.toList.splitOn '.' = [h, p, s] ∧
      b64urlDecode s = some (TokenKit.hmacSha256 key (encode (h ++ '.' :: p))).toList := by
  unfold verifyHs256 at hok
  split at hok
  · rename_i h p s hsplit
    dsimp only at hok
    split at hok
    · rename_i given hgiven
      refine ⟨h, p, s, hsplit, ?_⟩
      rcases hct : constantTimeEq (TokenKit.hmacSha256 key (encode (h ++ '.' :: p))).toList given
        with - | -
      · rw [hct] at hok
        cases hok
      · rw [hgiven, (constantTimeEq_iff _ _).mp hct]
    · cases hok
  · cases hok

/-! ## Authorization -/

/-- The namespaces of a node and of a token do not differ. -/
def Compatible (node token : Option String) : Prop :=
  node = none ∨ token = none ∨ node = token

/-- Once a token verifies, it is accepted exactly when it is live, in scope and capable. -/
theorem authorize_iff {p : AuthPolicy} {token : String} {claims : Claims} (now : ℕ)
    (verb : String) (hverify : verifyHs256 token p.key = .ok claims) :
    p.authorize now (some token) verb = .ok claims.role ↔
      now < claims.exp ∧ Compatible p.namespace_ claims.ns ∧ Role.minRole verb ≤ claims.role := by
  have hcodec : TokenCodec.verify token p.key = .ok claims := hverify
  unfold AuthPolicy.authorize Compatible
  simp only [hcodec, bind, Except.bind, pure, Except.pure, throw, throwThe,
    MonadExceptOf.throw, Role.allows]
  by_cases hlive : claims.exp ≤ now
  · rw [if_pos hlive]
    constructor
    · intro h
      cases h
    · rintro ⟨hnow, -⟩
      omega
  rw [if_neg hlive]
  have hnow : now < claims.exp := by omega
  by_cases hallow : Role.minRole verb ≤ claims.role
  · cases hnode : p.namespace_ with
    | none => simp [hnow, hallow]
    | some node =>
      cases htoken : claims.ns with
      | none => simp [hnow, hallow]
      | some ns =>
        by_cases hns : node = ns
        · simp [hnow, hallow, hns]
        · simp [hns]
  · cases hnode : p.namespace_ with
    | none => simp [hallow]
    | some node =>
      cases htoken : claims.ns with
      | none => simp [hallow]
      | some ns =>
        by_cases hns : node = ns
        · simp [hallow, hns]
        · simp [hns]

/-- What is accepted has verified. -/
theorem verified_of_authorize {p : AuthPolicy} {now : ℕ} {token : String} {verb : String}
    {role : Role} (hok : p.authorize now (some token) verb = .ok role) :
    ∃ claims, verifyHs256 token p.key = .ok claims := by
  unfold AuthPolicy.authorize at hok
  cases hverify : TokenCodec.verify token p.key with
  | error e => simp [hverify, bind, Except.bind] at hok
  | ok claims => exact ⟨claims, hverify⟩

/-- **base64url loses nothing; an issued token is accepted exactly when it is live, in scope and
capable; and what is accepted carries the keyed hash of its first two segments.** -/
theorem token_authorization :
    (∀ input : Bytes, b64urlDecode (b64urlEncode input) = some input) ∧
    (∀ (p : AuthPolicy) (now : ℕ) (claims : Claims) (verb : String),
      TokenKit.claimsFromSlice (TokenKit.claimsToVec claims) = some claims →
      (p.authorize now (some (p.issue claims)) verb = .ok claims.role ↔
        now < claims.exp ∧ Compatible p.namespace_ claims.ns ∧
          Role.minRole verb ≤ claims.role)) ∧
    ∀ (p : AuthPolicy) (now : ℕ) (token verb : String) (role : Role),
      p.authorize now (some token) verb = .ok role →
      ∃ h s t, token.toList.splitOn '.' = [h, s, t] ∧
        b64urlDecode t = some (TokenKit.hmacSha256 p.key (encode (h ++ '.' :: s))).toList := by
  refine ⟨b64url_round_trip, ?_, ?_⟩
  · intro p now claims verb hserde
    exact authorize_iff now verb (verify_sign p.key hserde)
  · intro p now token verb role hok
    obtain ⟨claims, hverify⟩ := verified_of_authorize hok
    exact verify_ok hverify

end Issue

/-- The claims of a reader. -/
def readerClaims : Claims := ⟨"svc", .reader, none, 1, 9⟩

/-- Their JSON text. -/
def readerJson : Bytes :=
  encode "\x7b\"sub\":\"svc\",\"role\":\"reader\",\"iat\":1,\"exp\":9\x7d".toList

/-- The keyed hash of the source, and the JSON text of the reader's claims. -/
abbrev readerKit : TokenKit where
  hmacSha256 := hmacSha256
  claimsToVec := fun _ => readerJson
  claimsFromSlice := fun bytes => if bytes = readerJson then some readerClaims else none

/-- A token of a reader is accepted for a query before it expires. -/
theorem token_authorization_reader :
    @AuthPolicy.authorize ⟨@verifyHs256 readerKit⟩ ⟨[1, 2, 3], some "lab"⟩ 5
      (some (@AuthPolicy.issue readerKit ⟨[1, 2, 3], some "lab"⟩ readerClaims)) "query" =
        .ok .reader :=
  ((@token_authorization readerKit).2.1 ⟨[1, 2, 3], some "lab"⟩ 5 readerClaims "query"
    (if_pos rfl)).mpr ⟨by decide, Or.inr (Or.inl rfl), by decide⟩

end Rro.Analysis
