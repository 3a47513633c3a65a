import Cavs.Types
import Mathlib.Data.Countable.Basic
import Mathlib.Logic.Equiv.List

/-!
# Codecs that keep their promises

What the store takes from other packages is a parameter with laws. The laws can be met: the
documents of a store can be counted, and a number is written as that many bytes.
-/
namespace Cavs
open FileProg (Bytes)
open ByteScan
open Std (ExtTreeMap ExtTreeSet)

instance countableChar : Countable Char :=
  Function.Injective.countable (f := Char.toNat) fun _ _ same => Char.toNat_inj.mp same

instance countableString : Countable String :=
  Function.Injective.countable (f := String.toList) fun _ _ same => String.toList_inj.mp same

instance countableByte : Countable UInt8 :=
  Function.Injective.countable (f := UInt8.toNat) fun _ _ same => UInt8.toNat_inj.mp same

instance countableUInt32 : Countable UInt32 :=
  Function.Injective.countable (f := UInt32.toNat) fun _ _ same => UInt32.toNat_inj.mp same

instance countableUInt64 : Countable UInt64 :=
  Function.Injective.countable (f := UInt64.toNat) fun _ _ same => UInt64.toNat_inj.mp same

instance : Countable StoreLayout :=
  Function.Injective.countable (f := fun layout => decide (layout = .loose)) fun a b same => by
    cases a <;> cases b <;> first | rfl | cases same

instance : Countable SegKind :=
  Function.Injective.countable (f := fun kind => decide (kind = .base)) fun a b same => by
    cases a <;> cases b <;> first | rfl | cases same

instance : Countable RootSegment :=
  Function.Injective.countable
    (f := fun s => (s.file, s.kind, s.records, s.size, s.min, s.max)) fun a b same => by
      cases a
      cases b
      simpa using same

instance : Countable RootBody :=
  Function.Injective.countable (f := fun r => (r.version, r.generation, r.layout, r.segments))
    fun a b same => by
      cases a
      cases b
      simpa using same

instance : Countable AssetTable :=
  Function.Injective.countable (f := fun t : AssetTable => t.toList) fun _ _ same =>
    ExtTreeMap.toList_inj.mp same

/-- The number of a value, in bytes that say nothing. -/
noncomputable def unary {α : Type} [Countable α] (a : α) : Bytes :=
  List.replicate (Classical.choose (exists_injective_nat α) a) 0

theorem unary_injective {α : Type} [Countable α] : Function.Injective (unary : α → Bytes) := by
  intro a b same
  apply Classical.choose_spec (exists_injective_nat α)
  simpa [unary] using congrArg List.length same

open Classical in
noncomputable def ofUnary (α : Type) [Countable α] (b : Bytes) : Except String α :=
  if h : ∃ a : α, unary a = b then .ok h.choose else .error "no value"

theorem ofUnary_unary {α : Type} [Countable α] (a : α) : ofUnary α (unary a) = .ok a := by
  have found : ∃ a' : α, unary a' = unary a := ⟨a, rfl⟩
  rw [ofUnary, dif_pos found, unary_injective found.choose_spec]

/-- Codecs that write numbers, and a hash that keeps the first bytes. -/
noncomputable def countingEnv : Env where
  hashChunk := numberHash
  recordJson record := strBytes record.name
  indexFromJson _ := none
  rootJson := unary
  rootFromJson := ofUnary RootBody
  rootFromJson_rootJson := ofUnary_unary
  docJson checksum body := unary (some body, checksum)
  docFromJson := ofUnary (Option Bytes × String)
  docFromJson_docJson _ _ := ofUnary_unary _
  assetsJson := unary
  assetsFromJson := ofUnary AssetTable
  assetsFromJson_assetsJson := ofUnary_unary
  compress b := b
  decompress n b := if b.length ≤ n then .ok b else .error "too long"
  decompress_compress _ _ small := if_pos small
  setOrder _ l := l
  setOrder_perm _ _ := List.Perm.refl _

end Cavs
