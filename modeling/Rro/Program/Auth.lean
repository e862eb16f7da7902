import Rro.Program.Records

/-!
# Roles and tokens

The verb policy of a node and the check of a signed token. Verifying a signature is a
parameter: nothing here depends on which tokens a key accepts.

SOURCE: crates/rro-engine/src/auth.rs.
-/

set_option autoImplicit false

namespace Rro.Program

/-- `Role`. -/
inductive Role where
  | reader
  | writer
  | admin
deriving DecidableEq

/-- The position of a role among the tiers. -/
def Role.tier : Role → ℕ
  | .reader => 0
  | .writer => 1
  | .admin => 2

instance : LE Role := ⟨fun a b => a.tier ≤ b.tier⟩

instance (a b : Role) : Decidable (a ≤ b) := inferInstanceAs (Decidable (_ ≤ _))

/-- `Role::min_role`. -/
def Role.minRole (verb : String) : Role :=
  match verb with
  | "compact" => .admin
  | "flush" => .admin
  | "drop_collection" => .admin
  | "index" => .writer
  | "tx" => .writer
  | "relate" => .writer
  | "set_payload" => .writer
  | "overwrite_payload" => .writer
  | "delete_payload_keys" => .writer
  | "clear_payload" => .writer
  | "create_alias" => .writer
  | "delete_alias" => .writer
  | _ => .reader

/-- `Role::allows`. -/
def Role.allows (r : Role) (verb : String) : Bool := Role.minRole verb ≤ r

/-- `Claims`: the payload of a token. -/
structure Claims where
  sub : String
  role : Role
  ns : Option String
  iat : ℕ
  exp : ℕ

/-- `AuthError`. -/
inductive AuthError where
  | missing
  | malformed
  | badSignature
  | expired
  | forbidden
  | wrongNamespace
deriving DecidableEq

/-- `verify_hs256`: the claims of a token that a key has signed. -/
class TokenCodec where
  verify : String → Bytes → Except AuthError Claims

/-- `AuthPolicy`. -/
structure AuthPolicy where
  key : Bytes
  namespace_ : Option String

/-- `AuthPolicy::authorize` at the time `now`. -/
def AuthPolicy.authorize [TokenCodec] (p : AuthPolicy) (now : ℕ) (token : Option String)
    (verb : String) : Except AuthError Role := do
  let some token := token | throw .missing
  let claims ← TokenCodec.verify token p.key
  if claims.exp ≤ now then throw .expired
  match p.namespace_, claims.ns with
  | some nodeNs, some tokNs => if nodeNs ≠ tokNs then throw .wrongNamespace
  | _, _ => pure ()
  if !claims.role.allows verb then throw .forbidden
  pure claims.role

end Rro.Program
