import Cavs.Hash

/-!
# Object identity

What class an object belongs to and the hash that names it. Structural classes
are hashed behind a domain and their tag; a chunk is hashed as it is.
-/
namespace Cavs
open FileProg (Bytes IoError)
open ByteScan

def objectDomain : Bytes := [99, 97, 118, 115, 45, 111, 98, 106, 101, 99, 116, 45, 118, 49]

/-- The class of a content-addressed object. -/
inductive ObjectKind where
  | chunk
  | manifest
  | tree
  | commit
  | packIndex
  | bundleIndex
  | application (id : UInt32)
  deriving DecidableEq, Repr

def applicationTagBase : Nat := 2 ^ 31

namespace ObjectKind

/-- The wire tag of a class, hashed into every structural id. An application id gives
its low 31 bits under the set top bit. -/
def tag : ObjectKind → Nat
  | chunk => 0
  | manifest => 1
  | tree => 2
  | commit => 3
  | packIndex => 4
  | bundleIndex => 5
  | application id => applicationTagBase + id.toNat % applicationTagBase

/-- Unknown tags below the application range are rejected. -/
def fromTag (t : Nat) : Option ObjectKind :=
  if t = 0 then some chunk
  else if t = 1 then some manifest
  else if t = 2 then some tree
  else if t = 3 then some commit
  else if t = 4 then some packIndex
  else if t = 5 then some bundleIndex
  else if t ≥ applicationTagBase then some (application (UInt32.ofNat (t % applicationTagBase)))
  else none

def isPayload : ObjectKind → Bool
  | chunk => true
  | _ => false

/-- The kinds that `fromTag` yields: an application id of 2^31 or more is none of them. -/
def Known (k : ObjectKind) : Prop := fromTag k.tag = some k

instance (k : ObjectKind) : Decidable k.Known := inferInstanceAs (Decidable (_ = _))

theorem tag_lt (k : ObjectKind) : k.tag < 2 ^ 32 := by
  cases k <;> simp only [tag, applicationTagBase] <;> omega

theorem tag_of_fromTag {t : Nat} {k : ObjectKind} (small : t < 2 ^ 32) (h : fromTag t = some k) :
    k.tag = t := by
  unfold fromTag at h
  split_ifs at h with h0 h1 h2 h3 h4 h5 base <;> cases h <;> try exact Eq.symm ‹_›
  rw [tag, applicationTagBase] at *
  rw [UInt32.toNat_ofNat']
  omega

theorem known_of_fromTag {t : Nat} {k : ObjectKind} (small : t < 2 ^ 32) (h : fromTag t = some k) :
    k.Known := by
  rw [Known, tag_of_fromTag small h, h]

theorem tag_injective {k k' : ObjectKind} (known : k.Known) (known' : k'.Known)
    (h : k.tag = k'.tag) : k = k' := by
  rw [Known, h, known'] at known
  exact (Option.some.inj known).symm

theorem isPayload_iff {k : ObjectKind} : k.isPayload = true ↔ k = chunk := by
  cases k <;> simp [isPayload]

end ObjectKind

/-- The hash function that names an object. There is only one today. -/
inductive HashAlgorithm where
  | blake3
  deriving DecidableEq, Repr

def HashAlgorithm.code : HashAlgorithm → UInt8
  | blake3 => 1

def HashAlgorithm.fromCode (code : UInt8) : Option HashAlgorithm :=
  if code = 1 then some blake3 else none

structure ObjectId where
  algorithm : HashAlgorithm
  digest : ChunkHash
  deriving DecidableEq, Repr

def ObjectId.fromBlake3 (digest : ChunkHash) : ObjectId := ⟨.blake3, digest⟩

/-- An id with all bytes the same. -/
def sameBytes (n : UInt8) : ObjectId := .fromBlake3 ⟨List.replicate 32 n, List.length_replicate⟩

/-- What is hashed to name an object. -/
def preimage (kind : ObjectKind) (canonical : Bytes) : Bytes :=
  if kind.isPayload then canonical else objectDomain ++ (le 4 kind.tag ++ canonical)

/-- The id of an object of a class with these canonical bytes. -/
def ObjectId.compute (hash : Bytes → ChunkHash) (kind : ObjectKind) (canonical : Bytes) : ObjectId :=
  .fromBlake3 (hash (preimage kind canonical))

theorem ObjectId.compute_inj {hash : Bytes → ChunkHash} {k k' : ObjectKind} {b b' : Bytes} :
    compute hash k b = compute hash k' b' ↔ hash (preimage k b) = hash (preimage k' b') := by
  simp [compute, fromBlake3]

/-- A chunk whose bytes are what a structural object is hashed as. -/
def Twins (k : ObjectKind) (b : Bytes) (k' : ObjectKind) (b' : Bytes) : Prop :=
  k = .chunk ∧ k' ≠ .chunk ∧ b = objectDomain ++ (le 4 k'.tag ++ b')

/-- Two objects are hashed as the same bytes only when they are the same object, or
one is a chunk made to look like the other. -/
theorem preimage_eq_iff {k k' : ObjectKind} {b b' : Bytes} (known : k.Known) (known' : k'.Known) :
    preimage k b = preimage k' b' ↔ k = k' ∧ b = b' ∨ Twins k b k' b' ∨ Twins k' b' k b := by
  by_cases payload : k = .chunk <;> by_cases payload' : k' = .chunk
  · subst payload payload'
    simp [preimage, ObjectKind.isPayload, Twins]
  · subst payload
    have structural := mt ObjectKind.isPayload_iff.mp payload'
    simp [preimage, ObjectKind.isPayload, Twins, payload', Ne.symm payload']
  · subst payload'
    have structural : k.isPayload = false := by
      rw [← Bool.not_eq_true, ObjectKind.isPayload_iff]; exact payload
    simp [preimage, ObjectKind.isPayload, Twins, payload, eq_comm]
  · have structural : k.isPayload = false := by
      rw [← Bool.not_eq_true, ObjectKind.isPayload_iff]; exact payload
    have structural' : k'.isPayload = false := by
      rw [← Bool.not_eq_true, ObjectKind.isPayload_iff]; exact payload'
    simp only [preimage, structural, structural', Bool.false_eq_true, if_false, Twins, payload, payload',
      false_and, or_false, List.append_cancel_left_eq]
    constructor
    · intro same
      obtain ⟨tags, rest⟩ := List.append_inj same (by simp)
      have := congrArg ofLe tags
      rw [ofLe_le (k.tag_lt.trans_eq rfl), ofLe_le (k'.tag_lt.trans_eq rfl)] at this
      exact ⟨ObjectKind.tag_injective known known' this, rest⟩
    · rintro ⟨rfl, rfl⟩
      rfl

/-- What the object layer reports. -/
inductive ObjectError where
  | truncated (what : String)
  | varintNotCanonical
  | unsupportedFormat (version : Nat)
  | unknownKind (tag : Nat)
  | unknownHashAlgorithm (code : UInt8)
  | kindMismatch (expected found : ObjectKind)
  | dependenciesNotCanonical
  | payloadWithDependencies
  | tooLarge (what : String) (len max : Nat)
  | tooManyDependencies (count max : Nat)
  | trailingBytes
  | idMismatch (expected actual : String)
  | notFound (hex : String)
  | corrupt (what : String)
  | cycleDetected (hex : String)
  | walkBudget (what : String) (limit : Nat)
  | walkCancelled
  | walkDeadlineExceeded
  | io (what : String) (source : IoError)
  deriving DecidableEq, Repr

end Cavs
