import HathorLedger.Common.Format

/-!
# The platform and the key and address functions

`Sdk` collects what the app takes from outside its own code: the cryptographic calls of the Ledger
SDK, the random generator, the network constant of the build, and the contents of the memory behind
the array `outputs`, which C leaves undefined. The functions of `hathor.c` are built on it.

A cryptographic call that can fail returns an `Option`. SHA-256 and RIPEMD-160 are functions on byte
strings; SHA-256 also has an incremental form, whose context is `Sha256Ctx`.

## Main definitions

* `Sdk`: the parameters.
* `Sdk.Succeeds`: no call of the platform fails.
* `Sdk.hashLast`: the `CX_LAST` call on an incremental SHA-256 context.
* `sha256d`, `hash160`, `compressPublicKey`, `addressFromPubkeyHash`, `addressFromPubkey`: from
  `hathor.c`.
* `b58Address`: the address text of the screens.
-/

namespace HathorLedger

/-- The calls of the SDK that the app relies on. -/
structure Sdk where
  /-- `os_derive_bip32_with_seed_no_throw` followed by `cx_ecfp_init_private_key_no_throw`: the
  private key and the chain code of a path. -/
  derivePrivateKey : List ℕ → Option (Bytes × Bytes)
  /-- `cx_ecfp_generate_pair_no_throw`: the 65 bytes of the uncompressed public key. -/
  initPublicKey : Bytes → Option Bytes
  sha256 : Bytes → Bytes
  length_sha256 : ∀ m, (sha256 m).length = 32
  ripemd160 : Bytes → Bytes
  /-- Whether a `CX_LAST` call empties the context; otherwise it leaves it unchanged. -/
  lastEmpties : Bool
  /-- What a `CX_LAST` call on a context of zero bytes returns, if it returns a digest. -/
  zeroedDigest : Option Bytes
  /-- `cx_ecdsa_sign_no_throw` with a private key and a digest. -/
  ecdsaSign : Bytes → Bytes → Option Bytes
  /-- The bytes of the `n`-th call of `cx_rng_no_throw`. -/
  rng : ℕ → Bytes
  /-- The bytes behind the last cell of `outputs`, read as an output. -/
  pastOutputs : ℕ → TxOutput
  /-- `P2PKH_VERSION_BYTE`, which depends on the network. -/
  p2pkhVersionByte : UInt8

namespace Sdk

variable (sdk : Sdk)

/-- The `CX_LAST` call of `cx_hash_no_throw` on `data`: the digest, and the context afterwards. -/
def hashLast : Sha256Ctx → Bytes → Option (Bytes × Sha256Ctx)
  | .zeroed, _ => sdk.zeroedDigest.map fun d => (d, .zeroed)
  | .fed old, data =>
    some (sdk.sha256 (old ++ data), .fed (if sdk.lastEmpties then [] else old ++ data))

/-- No call fails. -/
structure Succeeds : Prop where
  derivePrivateKey : ∀ path, sdk.derivePrivateKey path ≠ none
  initPublicKey : ∀ key, sdk.initPublicKey key ≠ none
  zeroedDigest : sdk.zeroedDigest ≠ none
  ecdsaSign : ∀ key digest, sdk.ecdsaSign key digest ≠ none

/-- A platform with simple functions, on which runs can be evaluated: the key of a path is spelled
by its components, and a digest starts with the sum and the length of the bytes. -/
def sample : Sdk where
  derivePrivateKey path := some (path.map UInt8.ofNat, List.replicate 32 1)
  initPublicKey key := some ((0x04 :: key ++ List.replicate 64 0).take 65)
  sha256 m := [m.foldl (· + ·) 1, UInt8.ofNat m.length] ++ List.replicate 30 0
  length_sha256 := by simp
  ripemd160 m := m.take 20
  lastEmpties := true
  zeroedDigest := none
  ecdsaSign key digest := some (key ++ digest)
  rng n := List.replicate 32 (UInt8.ofNat (n + 1))
  pastOutputs _ := {}
  p2pkhVersionByte := 0x28

end Sdk

variable (sdk : Sdk)

def sha256d (input : Bytes) : Bytes := sdk.sha256 (sdk.sha256 input)

def hash160 (input : Bytes) : Bytes := sdk.ripemd160 (sdk.sha256 input)

/-- `compress_public_key`: the first byte becomes the parity of `y`. -/
def compressPublicKey (value : Bytes) : Bytes :=
  memmove value 0 [if byteAt value 64 % 2 = 1 then 0x03 else 0x02]

/-- `address_from_pubkey_hash`, or `none` where it returns an error. -/
def addressFromPubkeyHash (publicKeyHash : Bytes) (publicKeyHashLen outLen : ℕ) : Option Bytes :=
  if publicKeyHashLen < pubkeyHashLen ∨ outLen < 25 then none
  else
    let out := sdk.p2pkhVersionByte :: publicKeyHash.take pubkeyHashLen
    some (out ++ (sha256d sdk out).take 4)

/-- With the capacities that the callers pass, no error occurs. -/
theorem addressFromPubkeyHash_eq (hash : Bytes) :
    addressFromPubkeyHash sdk hash pubkeyHashLen addressLen =
      some (sdk.p2pkhVersionByte :: hash.take pubkeyHashLen ++
        (sha256d sdk (sdk.p2pkhVersionByte :: hash.take pubkeyHashLen)).take 4) :=
  if_neg (by decide)

/-- `address_from_pubkey`, or `none` where it returns an error. -/
def addressFromPubkey (publicKey : Bytes) (outLen : ℕ) : Option Bytes :=
  if outLen < 25 then none
  else
    let buffer := hash160 sdk ((compressPublicKey publicKey).take 33)
    addressFromPubkeyHash sdk buffer pubkeyHashLen outLen

/-- The cells of `g_address` after the encoding of an address: `base58_encode` writes no NUL, and
writes nothing at all when it fails. -/
def b58Address (address : Bytes) : Bytes :=
  memmove (List.replicate b58AddressLen 0) 0 ((base58Encode address b58AddressLen).getD [])

end HathorLedger
