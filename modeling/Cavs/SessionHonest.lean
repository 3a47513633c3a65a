import Cavs.Session
import Mathlib.Data.Finset.Lattice.Basic
import Mathlib.Data.FinEnum

/-!
# Session bookkeeping

A reference is honest when its chunk was announced or sent inline before. The known set
stays honest as long as a request fails, if at all, before it comes to an item with a chunk
the session does not know; a request that fails later leaves chunks known that never
travelled.
-/
namespace Cavs
open FileProg (Bytes)
open Planning (bind_error bind_ok bind_panics ok_of_bind pure_bind)

section Honest

def inlined : List DeliveryInstr → List ChunkHash
  | [] => []
  | .ref _ :: rest => inlined rest
  | .inline hash .. :: rest => hash :: inlined rest

/-- Every reference names a chunk of `F` or one that is inline before it. -/
def Backed (F : ChunkHash → Prop) : List DeliveryInstr → Prop
  | [] => True
  | .ref hash :: rest => F hash ∧ Backed F rest
  | .inline hash .. :: rest => Backed (fun g => F g ∨ g = hash) rest

def BatchResponse.instrs (resp : BatchResponse) : List DeliveryInstr :=
  resp.inits.flatMap InitDelivery.instrs ++ resp.segments.flatMap SegmentDelivery.instrs

/-- The known indices are chunks of the asset, and their hashes are in `F`. -/
def Knows (asset : Asset) (F : ChunkHash → Prop) (known : Finset UInt32) : Prop :=
  ∀ idx ∈ known, ∃ hash, asset.hashOf idx = some hash ∧ F hash

variable {asset : Asset} {F G : ChunkHash → Prop} {known : Finset UInt32}

theorem backed_append {a b : List DeliveryInstr} :
    Backed F (a ++ b) ↔ Backed F a ∧ Backed (fun g => F g ∨ g ∈ inlined a) b := by
  induction a generalizing F with
  | nil => simp [Backed, inlined]
  | cons instr rest ih =>
      cases instr with
      | ref hash => simp [Backed, inlined, ih, and_assoc]
      | inline hash => simp [Backed, inlined, ih, or_assoc]

@[simp] theorem inlined_append (a b : List DeliveryInstr) : inlined (a ++ b) = inlined a ++ inlined b := by
  induction a with
  | nil => rfl
  | cons instr rest ih =>
      cases instr with
      | ref hash => simpa [inlined] using ih
      | inline hash => simpa [inlined] using ih

theorem Knows.mono (h : Knows asset F known) (more : ∀ g, F g → G g) : Knows asset G known := by
  intro idx mem
  obtain ⟨hash, found, held⟩ := h idx mem
  exact ⟨hash, found, more hash held⟩

theorem Knows.insert {idx : UInt32} {hash : ChunkHash} (h : Knows asset F known) (found : asset.hashOf idx = some hash) :
    Knows asset (fun g => F g ∨ g = hash) (insert idx known) := by
  intro i mem
  rcases Finset.mem_insert.mp mem with rfl | mem
  · exact ⟨hash, found, .inr rfl⟩
  · obtain ⟨g, found', held⟩ := h i mem
    exact ⟨g, found', .inl held⟩

end Honest

section Chunks
variable {env : ContainerEnv} {asset : Asset} {reads : ChunkReads} {F : ChunkHash → Prop} {known : Finset UInt32}
  {force : Bool} {chunks : List UInt32} {payloads : List StoredForm} {indices : List UInt32}

/-- Every chunk a request names is known after its first pass. -/
theorem planSlots_known : (planSlots force chunks known).2 = known ∪ chunks.toFinset := by
  induction chunks generalizing known with
  | nil => simp [planSlots]
  | cons idx rest ih =>
      simp only [planSlots]
      split
      · rename_i there
        ext i
        simp only [ih, List.toFinset_cons, Finset.mem_union, Finset.mem_insert]
        constructor
        · rintro (old | new)
          · exact .inl old
          · exact .inr (.inr new)
        · rintro (old | rfl | new)
          · exact .inl old
          · exact .inl there.2
          · exact .inr new
      · ext i
        simp only [ih, List.toFinset_cons, Finset.mem_union, Finset.mem_insert]
        tauto

theorem coldOf_known (all : ∀ c ∈ chunks, c ∈ known) : coldOf (planSlots false chunks known).1 = [] := by
  induction chunks with
  | nil => rfl
  | cons idx rest ih =>
      have here := all idx List.mem_cons_self
      simpa [planSlots, here, coldOf] using ih fun c mem => all c (List.mem_cons_of_mem _ mem)

theorem hashAt_ok {idx : UInt32} {hash : ChunkHash} (h : hashAt asset idx = .ok hash) : asset.hashOf idx = some hash := by
  rw [hashAt] at h
  split at h
  · cases h
    assumption
  · cases h

/-- The deliveries of a planned item keep the known set honest. -/
theorem fillSlots_backed {instrs : List DeliveryInstr} (honest : Knows asset F known)
    (h : fillSlots env asset (planSlots force chunks known).1 payloads = .ok instrs) :
    Backed F instrs ∧ Knows asset (fun g => F g ∨ g ∈ inlined instrs) (planSlots force chunks known).2 := by
  induction chunks generalizing known F payloads instrs with
  | nil =>
      cases h
      exact ⟨trivial, honest.mono fun _ => .inl⟩
  | cons idx rest ih =>
      simp only [planSlots] at h ⊢
      split at h
      · rename_i there
        rw [if_pos there]
        obtain ⟨hash, found, h⟩ := Outcome.ok_of_bindO h
        obtain ⟨tail, later, h⟩ := Outcome.ok_of_bindO h
        cases h
        obtain ⟨backed, knows⟩ := ih honest later
        obtain ⟨g, same, held⟩ := honest idx there.2
        cases (hashAt_ok found).symm.trans same
        exact ⟨⟨held, backed⟩, knows⟩
      · rename_i cold
        rw [if_neg cold]
        cases payloads with
        | nil => cases h
        | cons stored payloads =>
            obtain ⟨⟨payload, flags⟩, -, h⟩ := Outcome.ok_of_bindO h
            obtain ⟨hash, found, h⟩ := Outcome.ok_of_bindO h
            obtain ⟨tail, later, h⟩ := Outcome.ok_of_bindO h
            cases h
            obtain ⟨backed, knows⟩ := ih (honest.insert (hashAt_ok found)) later
            refine ⟨backed, knows.mono ?_⟩
            simp [inlined, or_assoc]

/-- A batch of cold chunks is read, and what was read can be put on the wire. -/
def Deliverable (env : ContainerEnv) (asset : Asset) (reads : ChunkReads) (cold : List UInt32) : Prop :=
  ∃ payloads, readStoredBatch asset reads cold = .ok payloads ∧ ∀ p ∈ payloads, ∃ x, wirePayload env p = .ok x

theorem hashOf_of_lt {idx : UInt32} (inside : idx.toNat < asset.chunkMeta.length) : ∃ hash, asset.hashOf idx = some hash := by
  simp [Asset.hashOf, List.getElem?_eq_getElem inside]

theorem readEach_ok {l : List StoredForm} (h : readEach asset reads indices = .ok l) :
    l.length = indices.length ∧ ∀ idx ∈ indices, ∃ hash, asset.hashOf idx = some hash := by
  induction indices generalizing l with
  | nil =>
      cases h
      simp
  | cons idx rest ih =>
      rw [readEach] at h
      split at h
      · rename_i inside
        cases one : reads.chunk idx with
        | error e =>
            rw [one] at h
            cases h
        | ok stored =>
            cases more : readEach asset reads rest with
            | error e =>
                rw [one, more] at h
                cases h
            | ok tail =>
                rw [one, more] at h
                cases h
                obtain ⟨long, named⟩ := ih more
                exact ⟨congrArg Nat.succ long, List.forall_mem_cons.mpr ⟨hashOf_of_lt inside, named⟩⟩
      · cases h

theorem batchHashes_some {hashes : List ChunkHash} (h : batchHashes asset indices = some hashes) :
    hashes.length = indices.length ∧ ∀ idx ∈ indices, ∃ hash, asset.hashOf idx = some hash := by
  induction indices generalizing hashes with
  | nil =>
      cases h
      simp
  | cons idx rest ih =>
      obtain ⟨hash, found, h⟩ := Option.bind_eq_some_iff.mp h
      obtain ⟨tail, more, h⟩ := Option.bind_eq_some_iff.mp h
      cases h
      obtain ⟨long, named⟩ := ih more
      exact ⟨congrArg Nat.succ long, List.forall_mem_cons.mpr ⟨⟨hash, found⟩, named⟩⟩

/-- A batch that was read has one chunk for each index, and the indices are in the table. -/
theorem readStoredBatch_ok {l : List StoredForm} (h : readStoredBatch asset reads indices = .ok l) :
    l.length = indices.length ∧ ∀ idx ∈ indices, ∃ hash, asset.hashOf idx = some hash := by
  rw [readStoredBatch] at h
  split at h
  · exact readEach_ok h
  · split at h
    · cases h
    · rename_i hashes named
      split at h
      · rename_i batch _
        cases h
        obtain ⟨long, found⟩ := batchHashes_some named
        exact ⟨batch.2.trans long, found⟩
      · cases h

def Slot.idx : Slot → UInt32
  | .ref idx => idx
  | .inline idx => idx

theorem hashAt_of_some {idx : UInt32} {hash : ChunkHash} (found : asset.hashOf idx = some hash) :
    hashAt asset idx = .ok hash := by
  rw [hashAt, found]

theorem wirePayload_error {stored : StoredForm} (h : ¬ ∃ x, wirePayload env stored = .ok x) :
    ∃ e, wirePayload env stored = .error e := by
  cases same : wirePayload env stored with
  | ok x => exact absurd ⟨x, same⟩ h
  | error e => exact ⟨e, rfl⟩
  | panics =>
      rw [wirePayload] at same
      split at same
      · split at same <;> cases same
      · cases same

/-- The slots are filled exactly when every payload travels. -/
theorem fillSlots_gives {slots : List Slot} (long : payloads.length = (coldOf slots).length)
    (named : ∀ slot ∈ slots, ∃ hash, asset.hashOf slot.idx = some hash) :
    ((∀ p ∈ payloads, ∃ x, wirePayload env p = .ok x) → ∃ instrs, fillSlots env asset slots payloads = .ok instrs) ∧
      ((¬ ∀ p ∈ payloads, ∃ x, wirePayload env p = .ok x) → ∃ e, fillSlots env asset slots payloads = .error e) := by
  induction slots generalizing payloads with
  | nil =>
      cases List.length_eq_zero_iff.mp long
      exact ⟨fun _ => ⟨[], rfl⟩, fun stays => absurd (fun p mem => (List.not_mem_nil mem).elim) stays⟩
  | cons slot rest ih =>
      obtain ⟨hash, found⟩ := named slot List.mem_cons_self
      have later := fun s mem => named s (List.mem_cons_of_mem _ mem)
      cases slot with
      | ref idx =>
          have at_ : hashAt asset idx = .ok hash := hashAt_of_some found
          obtain ⟨ok, error⟩ := ih long later
          refine ⟨fun travel => ?_, fun stays => ?_⟩
          · obtain ⟨instrs, filled⟩ := ok travel
            exact ⟨.ref hash :: instrs, by simp [fillSlots, at_, filled]⟩
          · obtain ⟨e, filled⟩ := error stays
            exact ⟨e, by simp [fillSlots, at_, filled]⟩
      | inline idx =>
          have at_ : hashAt asset idx = .ok hash := hashAt_of_some found
          cases payloads with
          | nil => cases long
          | cons stored payloads =>
              obtain ⟨ok, error⟩ := ih (Nat.succ.inj long) later
              rw [List.forall_mem_cons]
              refine ⟨fun ⟨⟨x, wire⟩, travel⟩ => ?_, fun stays => ?_⟩
              · obtain ⟨instrs, filled⟩ := ok travel
                simp [fillSlots, at_, filled, wire]
              · by_cases wire : ∃ x, wirePayload env stored = .ok x
                · obtain ⟨e, filled⟩ := error fun all => stays ⟨wire, all⟩
                  obtain ⟨x, wire⟩ := wire
                  exact ⟨e, by simp [fillSlots, at_, filled, wire]⟩
                · obtain ⟨e, wire⟩ := wirePayload_error wire
                  exact ⟨e, by simp [fillSlots, wire]⟩

/-- The slots of a planned item name chunks of the asset, where the cold ones do. -/
theorem planSlots_named (honest : Knows asset F known)
    (cold : ∀ idx ∈ coldOf (planSlots force chunks known).1, ∃ hash, asset.hashOf idx = some hash) :
    (∀ slot ∈ (planSlots force chunks known).1, ∃ hash, asset.hashOf slot.idx = some hash) := by
  induction chunks generalizing known F with
  | nil => simp [planSlots]
  | cons idx rest ih =>
      simp only [planSlots] at cold ⊢
      split at cold
      · rename_i there
        rw [if_pos there]
        obtain ⟨hash, found, -⟩ := honest idx there.2
        exact List.forall_mem_cons.mpr ⟨⟨hash, found⟩, ih honest cold⟩
      · rename_i absent
        rw [if_neg absent]
        obtain ⟨⟨hash, found⟩, cold⟩ := List.forall_mem_cons.mp cold
        exact List.forall_mem_cons.mpr ⟨⟨hash, found⟩, ih (honest.insert found) cold⟩

/-- An item is planned exactly when its cold chunks are readable; its chunks are known in
either case. -/
theorem planChunks_ok (honest : Knows asset F known)
    (readable : Deliverable env asset reads (coldOf (planSlots force chunks known).1)) :
    ∃ instrs, planChunks env asset reads chunks force known = (.ok instrs, known ∪ chunks.toFinset) := by
  obtain ⟨payloads, read, travel⟩ := readable
  obtain ⟨long, cold⟩ := readStoredBatch_ok read
  obtain ⟨instrs, filled⟩ := (fillSlots_gives long (planSlots_named honest cold)).1 travel
  refine ⟨instrs, ?_⟩
  rw [← @planSlots_known known force chunks]
  simp only [planChunks, read, filled]

theorem planChunks_error (honest : Knows asset F known)
    (not : ¬ Deliverable env asset reads (coldOf (planSlots force chunks known).1)) :
    ∃ e, planChunks env asset reads chunks force known = (.error e, known ∪ chunks.toFinset) := by
  rw [← @planSlots_known known force chunks]
  cases read : readStoredBatch asset reads (coldOf (planSlots force chunks known).1) with
  | error e => exact ⟨e, by simp only [planChunks, read]⟩
  | ok payloads =>
      obtain ⟨long, cold⟩ := readStoredBatch_ok read
      obtain ⟨e, filled⟩ := (fillSlots_gives long (planSlots_named honest cold)).2 fun travel => not ⟨payloads, read, travel⟩
      exact ⟨e, by simp only [planChunks, read, filled]⟩

theorem planChunks_backed (honest : Knows asset F known) {instrs : List DeliveryInstr} {known' : Finset UInt32}
    (h : planChunks env asset reads chunks force known = (.ok instrs, known')) :
    Backed F instrs ∧ Knows asset (fun g => F g ∨ g ∈ inlined instrs) known' := by
  simp only [planChunks] at h
  split at h
  · cases h
  · obtain ⟨filled, rfl⟩ := Prod.mk.inj h
    exact fillSlots_backed honest filled

end Chunks

section Items
variable {env : ContainerEnv} {asset : Asset} {maxCold n : Nat} {reads : Nat → ChunkReads} {F : ChunkHash → Prop}
  {known known' : Finset UInt32} {items : List Item} {item : Item} {chunks : List UInt32}

variable (env asset maxCold) in
/-- Every item from here on is found, read and put on the wire. -/
def Served (reads : Nat → ChunkReads) : List Item → (n : Nat) → Finset UInt32 → Prop
  | [], _, _ => True
  | item :: rest, n, known => ∃ chunks, item.found = .ok chunks ∧
      Deliverable env asset (reads n)
        (coldOf (planSlots (collapses maxCold item.mayCollapse known chunks) chunks known).1) ∧
      Served reads rest (n + 1) (known ∪ chunks.toFinset)

variable (env asset maxCold) in
/-- From the first item on that names a chunk the session does not know, everything is
served. -/
def Spares (reads : Nat → ChunkReads) : List Item → (n : Nat) → Finset UInt32 → Prop
  | [], _, _ => True
  | item :: rest, n, known => ∀ chunks, item.found = .ok chunks →
      if ∀ c ∈ chunks, c ∈ known then Deliverable env asset (reads n) [] → Spares reads rest (n + 1) known
      else Served env asset maxCold reads (item :: rest) n known

theorem union_of_known (all : ∀ c ∈ chunks, c ∈ known) : known ∪ chunks.toFinset = known := by
  apply Finset.union_eq_left.mpr
  intro c mem
  exact all c (List.mem_toFinset.mp mem)

theorem collapses_known {mayCollapse : Bool} (all : ∀ c ∈ chunks, c ∈ known) :
    collapses maxCold mayCollapse known chunks = false := by
  have none_ : chunks.filter (fun c => c ∉ known) = [] := by
    simpa [List.filter_eq_nil_iff] using all
  rw [collapses, none_]
  simp

theorem planItem_found (found : item.found = .ok chunks) :
    planItem env asset maxCold (reads n) item known =
      planChunks env asset (reads n) chunks (collapses maxCold item.mayCollapse known chunks) known := by
  rw [planItem, found]

theorem planItem_missing {e : String} (missing : item.found = .error e) :
    planItem env asset maxCold (reads n) item known = (.error e, known) := by
  rw [planItem, missing]

theorem planItem_ok (honest : Knows asset F known) (found : item.found = .ok chunks)
    (readable : Deliverable env asset (reads n)
      (coldOf (planSlots (collapses maxCold item.mayCollapse known chunks) chunks known).1)) :
    ∃ instrs, planItem env asset maxCold (reads n) item known = (.ok instrs, known ∪ chunks.toFinset) ∧
      Backed F instrs ∧ Knows asset (fun g => F g ∨ g ∈ inlined instrs) (known ∪ chunks.toFinset) := by
  obtain ⟨instrs, planned⟩ := planChunks_ok honest readable
  exact ⟨instrs, (planItem_found found).trans planned, planChunks_backed honest planned⟩

theorem planItem_error (honest : Knows asset F known) (found : item.found = .ok chunks)
    (not : ¬ Deliverable env asset (reads n)
      (coldOf (planSlots (collapses maxCold item.mayCollapse known chunks) chunks known).1)) :
    ∃ e, planItem env asset maxCold (reads n) item known = (.error e, known ∪ chunks.toFinset) := by
  obtain ⟨e, planned⟩ := planChunks_error honest not
  exact ⟨e, (planItem_found found).trans planned⟩

/-- Items that are all served are delivered: what they deliver is backed, and the known set
stays honest. -/
theorem served_ok (honest : Knows asset F known) (served : Served env asset maxCold reads items n known) :
    ∃ delivered known', planItems env asset maxCold reads items n known = (.ok delivered, known') ∧
      Backed F delivered.flatten ∧ Knows asset (fun g => F g ∨ g ∈ inlined delivered.flatten) known' := by
  induction items generalizing n known F with
  | nil => exact ⟨[], known, rfl, trivial, honest.mono fun _ => .inl⟩
  | cons item rest ih =>
      obtain ⟨chunks, found, readable, later⟩ := served
      obtain ⟨instrs, planned, backed, knows⟩ := planItem_ok honest found readable
      obtain ⟨more, known', planned', backed', knows'⟩ := ih knows later
      refine ⟨instrs :: more, known', ?_, ?_, ?_⟩
      · rw [planItems, bind_ok planned, bind_ok planned']
        rfl
      · exact backed_append.mpr ⟨backed, backed'⟩
      · apply knows'.mono
        simp [or_assoc]

/-- Items that are not all served end in an error, with the chunks known up to there. -/
theorem not_served_error (honest : Knows asset F known) (not : ¬ Served env asset maxCold reads items n known) :
    ∃ e known', planItems env asset maxCold reads items n known = (.error e, known') ∧ known ⊆ known' ∧
      ∀ item rest chunks, items = item :: rest → item.found = .ok chunks → chunks.toFinset ⊆ known' := by
  induction items generalizing n known F with
  | nil => exact absurd trivial not
  | cons item rest ih =>
      rw [planItems]
      cases found : item.found with
      | error e =>
          refine ⟨e, known, bind_error (planItem_missing found), Finset.Subset.refl _, ?_⟩
          rintro _ _ chunks ⟨⟩ same
          cases found.symm.trans same
      | ok chunks =>
          have mine : ∀ known', known ∪ chunks.toFinset ⊆ known' → known ⊆ known' ∧
              ∀ item' rest' chunks', item :: rest = item' :: rest' → item'.found = .ok chunks' → chunks'.toFinset ⊆ known' := by
            intro known' more
            refine ⟨Finset.union_subset_left more, ?_⟩
            rintro _ _ chunks' ⟨⟩ same
            cases found.symm.trans same
            exact Finset.union_subset_right more
          by_cases readable : Deliverable env asset (reads n)
              (coldOf (planSlots (collapses maxCold item.mayCollapse known chunks) chunks known).1)
          · obtain ⟨instrs, planned, -, knows⟩ := planItem_ok honest found readable
            obtain ⟨e, known', failed, more, -⟩ := ih knows fun later => not ⟨chunks, found, readable, later⟩
            exact ⟨e, known', (bind_ok planned).trans (bind_error failed), mine known' more⟩
          · obtain ⟨e, planned⟩ := planItem_error honest found readable
            exact ⟨e, _, bind_error planned, mine _ (Finset.Subset.refl _)⟩

/-- The known set survives a failure exactly when the items are spared. -/
theorem spares_iff (honest : Knows asset F known) :
    Spares env asset maxCold reads items n known ↔
      ∀ e known', planItems env asset maxCold reads items n known = (.error e, known') → known' = known := by
  induction items generalizing n with
  | nil => simp [Spares, planItems, Planning.pure_apply]
  | cons item rest ih =>
      rw [planItems, Spares]
      cases found : item.found with
      | error e => simp [bind_error (planItem_missing found)]
      | ok chunks =>
          simp only [Except.ok.injEq, forall_eq']
          split
          · rename_i all
            have cold : coldOf (planSlots (collapses maxCold item.mayCollapse known chunks) chunks known).1 = [] := by
              rw [collapses_known all, coldOf_known all]
            by_cases readable : Deliverable env asset (reads n) []
            · obtain ⟨instrs, planned, -, -⟩ := planItem_ok honest found (cold ▸ readable)
              rw [union_of_known all] at planned
              simp only [bind_ok planned, Planning.map_error, readable, forall_const]
              exact ih
            · obtain ⟨e, planned⟩ := planItem_error honest found (cold ▸ readable)
              rw [union_of_known all] at planned
              simp [bind_error planned, readable]
          · rename_i some_
            constructor
            · intro served e known' failed
              obtain ⟨delivered, k, planned, -⟩ := served_ok honest served
              rw [planItems] at planned
              rw [planned] at failed
              cases failed
            · intro kept
              by_contra not
              obtain ⟨e, known', failed, -, mine⟩ := not_served_error honest not
              rw [planItems] at failed
              cases kept e known' failed
              apply some_
              intro c mem
              exact mine item rest chunks rfl found (List.mem_toFinset.mpr mem)

end Items

section Request
variable {env : ContainerEnv} {asset : Asset} {maxCold : Nat} {reads : Nat → ChunkReads} {F : ChunkHash → Prop}
  {known known' : Finset UInt32}

/-- The items of a request in the order of their planning. -/
def BatchRequest.items (asset : Asset) (req : BatchRequest) : List Item :=
  req.trackInits.map (initItem asset) ++ req.segmentIds.map (segmentItem asset)

theorem planItems_append (a b : List Item) (n : Nat) :
    planItems env asset maxCold reads (a ++ b) n = do
      let x ← planItems env asset maxCold reads a n
      let y ← planItems env asset maxCold reads b (n + a.length)
      return x ++ y := by
  induction a generalizing n with
  | nil =>
      rw [planItems, pure_bind]
      exact (Planning.bind_pure _).symm
  | cons item rest ih =>
      simp only [List.cons_append, planItems, ih, Planning.bind_assoc, pure_bind, List.length_cons]
      rw [Nat.add_right_comm, Nat.add_assoc]

theorem planItems_length {items : List Item} {n : Nat} {l : List (List DeliveryInstr)}
    (h : planItems env asset maxCold reads items n known = (.ok l, known')) : l.length = items.length := by
  induction items generalizing n known l with
  | nil =>
      cases h
      rfl
  | cons item rest ih =>
      obtain ⟨instrs, k, one, h⟩ := ok_of_bind h
      obtain ⟨more, k', later, h⟩ := ok_of_bind h
      cases h
      exact congrArg Nat.succ (ih later)

theorem map_zipWith {A B C : Type} {f : A → B → C} {g : C → B} (back : ∀ a l, g (f a l) = l) {ids : List A}
    {ls : List B} (long : ls.length = ids.length) : (List.zipWith f ids ls).map g = ls := by
  induction ids generalizing ls with
  | nil =>
      cases List.length_eq_zero_iff.mp long
      rfl
  | cons a rest ih =>
      cases ls with
      | nil => cases long
      | cons l ls => simp [back, ih (Nat.succ.inj long)]

/-- A request ends as its items do, with the same known set. -/
theorem planRequest_outcome (req : BatchRequest) :
    match planItems env asset maxCold reads (req.items asset) 0 known with
    | (.ok l, k) => ∃ resp, planRequest env asset maxCold reads req known = (.ok resp, k) ∧ resp.instrs = l.flatten
    | (.error e, k) => planRequest env asset maxCold reads req known = (.error e, k)
    | (.panics, k) => planRequest env asset maxCold reads req known = (.panics, k) := by
  rw [BatchRequest.items, planItems_append, Nat.zero_add, List.length_map, planRequest]
  rcases first : planItems env asset maxCold reads (req.trackInits.map (initItem asset)) 0 known with ⟨x | e | _, k⟩
  · rw [bind_ok first, bind_ok first]
    rcases second : planItems env asset maxCold reads (req.segmentIds.map (segmentItem asset)) req.trackInits.length k with
      ⟨y | e | _, k'⟩
    · rw [bind_ok second, bind_ok second]
      refine ⟨_, rfl, ?_⟩
      have longX := planItems_length first
      have longY := planItems_length second
      rw [List.length_map] at longX longY
      rw [BatchResponse.instrs, List.flatMap_def, map_zipWith (fun _ _ => rfl) longX, List.flatMap_def,
        map_zipWith (fun _ _ => rfl) longY, List.flatten_append]
    · rw [bind_error second, bind_error second]
    · rw [bind_panics second, bind_panics second]
  · rw [bind_error first, bind_error first]
  · rw [bind_panics first, bind_panics first]

theorem planRequest_ok {req : BatchRequest} {l : List (List DeliveryInstr)}
    (planned : planItems env asset maxCold reads (req.items asset) 0 known = (.ok l, known')) :
    ∃ resp, planRequest env asset maxCold reads req known = (.ok resp, known') ∧ resp.instrs = l.flatten := by
  have outcome := @planRequest_outcome env asset maxCold reads known req
  rwa [planned] at outcome

theorem planRequest_error {req : BatchRequest} {e : String}
    (planned : planItems env asset maxCold reads (req.items asset) 0 known = (.error e, known')) :
    planRequest env asset maxCold reads req known = (.error e, known') := by
  have outcome := @planRequest_outcome env asset maxCold reads known req
  rwa [planned] at outcome

end Request

section Run
variable {env : ContainerEnv} {id : String} {F : ChunkHash → Prop} {state : AppState}

/-- A request to the session, with what the disk answers while it is planned. -/
structure BatchCall where
  req : BatchRequest
  reads : Nat → ChunkReads

variable (env id) in
/-- The bookkeeping over a sequence of requests: the references of a response are backed by
the announcement, by earlier responses or by itself, and an error leaves the known set. -/
def HonestRun : (ChunkHash → Prop) → AppState → List BatchCall → Prop
  | _, _, [] => True
  | F, state, call :: rest =>
      match planBatch env state id call.reads call.req with
      | (.ok resp, next) => Backed F resp.instrs ∧ HonestRun (fun h => F h ∨ h ∈ inlined resp.instrs) next rest
      | (.error _, next) => (next.sessions id).map Session.known = (state.sessions id).map Session.known ∧ HonestRun F next rest
      | (.panics, next) => HonestRun F next rest

variable (env id) in
/-- Every request of the sequence spares the known set it meets. -/
def SparesRun : AppState → List BatchCall → Prop
  | _, [] => True
  | state, call :: rest =>
      (∀ session asset, state.sessions id = some session → state.assets session.asset = some asset →
        Spares env asset state.maxCold call.reads (call.req.items asset) 0 session.known) ∧
      SparesRun (planBatch env state id call.reads call.req).2 rest

/-- The session is open, its lock is whole, and its known set is honest. -/
structure Open (id : String) (F : ChunkHash → Prop) (state : AppState) (session : Session) (asset : Asset) : Prop where
  whole : state.poisoned = false
  opened : state.sessions id = some session
  served : state.assets session.asset = some asset
  knows : Knows asset F session.known

/-- The state after a request that came back. -/
def AppState.after (state : AppState) (id : String) (session : Session) (known : Finset UInt32) : AppState :=
  { state with sessions := fun i => if i = id then some { session with known } else state.sessions i, poisoned := false }

variable {session : Session} {asset : Asset} {known : Finset UInt32}

theorem after_session : (state.after id session known).sessions id = some { session with known } := if_pos rfl

theorem Open.ok (h : Open id F state session asset) {call : BatchCall} {resp : BatchResponse}
    (planned : planRequest env asset state.maxCold call.reads call.req session.known = (.ok resp, known)) :
    planBatch env state id call.reads call.req = (.ok resp, state.after id session known) := by
  simp only [planBatch, h.whole, h.opened, h.served, planned]
  rfl

theorem Open.error (h : Open id F state session asset) {call : BatchCall} {e : String}
    (planned : planRequest env asset state.maxCold call.reads call.req session.known = (.error e, known)) :
    planBatch env state id call.reads call.req = (.error e, state.after id session known) := by
  simp only [planBatch, h.whole, h.opened, h.served, planned]
  rfl

theorem Open.after (h : Open id F state session asset) {G : ChunkHash → Prop} (knows : Knows asset G known) :
    Open id G (state.after id session known) { session with known } asset :=
  ⟨rfl, after_session, h.served, knows⟩

theorem Open.spares (h : Open id F state session asset) (call : BatchCall) :
    (∀ session asset, state.sessions id = some session → state.assets session.asset = some asset →
      Spares env asset state.maxCold call.reads (call.req.items asset) 0 session.known) ↔
    Spares env asset state.maxCold call.reads (call.req.items asset) 0 session.known := by
  constructor
  · exact fun all => all session asset h.opened h.served
  · intro spares s a opened served
    cases h.opened.symm.trans opened
    cases h.served.symm.trans served
    exact spares

/-- The bookkeeping of a session is honest exactly when its requests spare what is known. -/
theorem honestRun_iff {calls : List BatchCall} (h : Open id F state session asset) :
    HonestRun env id F state calls ↔ SparesRun env id state calls := by
  induction calls generalizing F state session with
  | nil => exact Iff.rfl
  | cons call rest ih =>
      rw [HonestRun, SparesRun, h.spares, spares_iff h.knows]
      by_cases served : Served env asset state.maxCold call.reads (call.req.items asset) 0 session.known
      · obtain ⟨l, known, items, backed, knows⟩ := served_ok h.knows served
        obtain ⟨resp, planned, same⟩ := planRequest_ok items
        rw [← same] at backed knows
        rw [h.ok planned]
        have further := ih (h.after knows)
        simp [items, backed, further]
      · obtain ⟨e, known, items, -⟩ := not_served_error h.knows served
        rw [h.error (planRequest_error items)]
        have kept : (∀ e' k, planItems env asset state.maxCold call.reads (call.req.items asset) 0 session.known =
            (.error e', k) → k = session.known) ↔ known = session.known := by
          rw [items]
          constructor
          · exact fun all => all e known rfl
          · rintro same _ _ ⟨⟩
            exact same
        rw [kept]
        simp only [after_session, h.opened, Option.map_some, Option.some.injEq]
        constructor
        · rintro ⟨same, honest⟩
          exact ⟨same, (ih (h.after (same ▸ h.knows))).mp honest⟩
        · rintro ⟨same, spared⟩
          exact ⟨same, (ih (h.after (same ▸ h.knows))).mpr spared⟩

end Run

section Announce
variable {asset : Asset} {hash : ChunkHash} {idx : UInt32}

/-- The chunks an announcement contains. -/
def Announcement.Has : Announcement → ChunkHash → Prop
  | .have_ hexes, hash => ∃ hex ∈ hexes, fromHex hex = some hash
  | .bloom filter, hash => filter.contains hash = some true

theorem lastPlace_some {l : List ChunkMeta} {n place : Nat} (h : lastPlace hash l n = some place) :
    n ≤ place ∧ (l[place - n]?).map ChunkMeta.hash = some hash := by
  induction l generalizing n with
  | nil => cases h
  | cons c rest ih =>
      rw [lastPlace] at h
      cases later : lastPlace hash rest (n + 1) with
      | some p =>
          rw [later] at h
          cases h
          obtain ⟨le, found⟩ := ih later
          have step : place - n = (place - (n + 1)) + 1 := by omega
          exact ⟨by omega, by rw [step, List.getElem?_cons_succ, found]⟩
      | none =>
          rw [later] at h
          dsimp only [Option.or] at h
          split at h
          · rename_i same
            cases h
            simp [same]
          · cases h

theorem indexByHash_some (h : asset.indexByHash hash = some idx) : asset.hashOf idx = some hash := by
  obtain ⟨place, found, rfl⟩ := Option.map_eq_some_iff.mp h
  obtain ⟨-, named⟩ := lastPlace_some found
  rw [Nat.sub_zero] at named
  obtain ⟨c, at_, -⟩ := Option.map_eq_some_iff.mp named
  have inside : place < 2 ^ 32 := lt_of_lt_of_le (List.getElem?_eq_some_iff.mp at_).1 asset.numbered
  rw [Asset.hashOf, UInt32.toNat_ofNat_of_lt' inside, named]

theorem knownOfHave_knows (hexes : List String) :
    Knows asset (fun h => ∃ hex ∈ hexes, fromHex hex = some h) (knownOfHave asset hexes) := by
  induction hexes with
  | nil => simp [Knows, knownOfHave]
  | cons hex rest ih =>
      have wider := ih.mono (G := fun h => ∃ g ∈ hex :: rest, fromHex g = some h)
        fun h ⟨g, mem, named⟩ => ⟨g, List.mem_cons_of_mem _ mem, named⟩
      rw [knownOfHave]
      split
      · rename_i found
        obtain ⟨hash, named, place⟩ := Option.bind_eq_some_iff.mp found
        apply (wider.insert (indexByHash_some place)).mono
        rintro h (old | rfl)
        · exact old
        · exact ⟨hex, List.mem_cons_self, named⟩
      · exact wider

theorem knownOfBloom_knows {filter : BloomFilter} {hashes : List ChunkHash} {known : Finset UInt32}
    (h : knownOfBloom asset filter hashes = some known) : Knows asset (fun h => filter.contains h = some true) known := by
  induction hashes generalizing known with
  | nil =>
      cases h
      simp [Knows]
  | cons hash rest ih =>
      obtain ⟨claimed, test, h⟩ := Option.bind_eq_some_iff.mp h
      obtain ⟨before, others, h⟩ := Option.bind_eq_some_iff.mp h
      split at h
      · rename_i found
        cases claimed with
        | false =>
            cases h
            exact ih others
        | true =>
            cases h
            apply ((ih others).insert (indexByHash_some found)).mono
            rintro g (old | rfl)
            · exact old
            · exact test
      · cases h
        exact ih others

/-- A session opens with the announced chunks known, and no others. -/
theorem openSession_open {state opened : AppState} {assetName id : String} {announcement : Announcement}
    (h : openSession state assetName id announcement = some opened) :
    ∃ session asset, Open id announcement.Has opened session asset := by
  obtain ⟨asset, named, h⟩ := Option.bind_eq_some_iff.mp h
  obtain ⟨known, first, h⟩ := Option.bind_eq_some_iff.mp h
  split at h
  · cases h
  · rename_i whole
    cases h
    refine ⟨⟨assetName, known⟩, asset, by simpa using whole, if_pos rfl, named, ?_⟩
    cases announcement with
    | have_ hexes =>
        cases first
        exact knownOfHave_knows hexes
    | bloom filter => exact knownOfBloom_knows first

/-- In every run of requests on an open session the references are backed and the errors
leave the known set as it was, exactly when every request of the run, from its first item on
that names a chunk the session does not know, is served. -/
theorem session_honest_iff (env : ContainerEnv) {state opened : AppState} {assetName id : String}
    {announcement : Announcement} (h : openSession state assetName id announcement = some opened)
    (calls : List BatchCall) :
    HonestRun env id announcement.Has opened calls ↔ SparesRun env id opened calls := by
  obtain ⟨session, asset, open_⟩ := openSession_open h
  exact honestRun_iff open_

end Announce

section Sample

/-- A segment with one chunk. -/
def oneChunk : Asset where
  source := .file
  tracks := []
  segments := [⟨0, 1, 0, 0, 0, [0]⟩]
  chunkMeta := [⟨numberHash [1], 1, 1, 0⟩]
  numbered := by decide

def servingOne : AppState where
  assets name := if name = "a" then some oneChunk else none
  sessions _ := none
  poisoned := false
  maxCold := 0

/-- The session "s" with these chunks known. -/
def sessionOne (known : Finset UInt32) : AppState :=
  { servingOne with sessions := fun i => if i = "s" then some ⟨"a", known⟩ else none }

def readsOne (_ : Nat) : ChunkReads where
  chunk _ := .ok ⟨[1], 0, 1⟩
  batch _ := .error "no store"

def askOne : BatchCall := ⟨⟨[], [0]⟩, readsOne⟩

/-- The second id is unknown. -/
def askTwo : BatchCall := ⟨⟨[], [0, 1]⟩, readsOne⟩

theorem openSession_one : openSession servingOne "a" "s" (.have_ []) = some (sessionOne ∅) := rfl

theorem session_honest_one : HonestRun plainEnv "s" (Announcement.have_ []).Has (sessionOne ∅) [askOne, askOne] := by
  apply (session_honest_iff plainEnv openSession_one _).mpr
  have first : planBatch plainEnv (sessionOne ∅) "s" askOne.reads askOne.req =
      (.ok ⟨[], [⟨0, [.inline (numberHash [1]) 1 0 [1]]⟩]⟩, (sessionOne ∅).after "s" ⟨"a", ∅⟩ {0}) := rfl
  refine ⟨?_, ?_⟩
  · rintro session asset ⟨⟩ ⟨⟩ chunks ⟨⟩
    rw [if_neg fun known => Finset.notMem_empty _ (known 0 (.head _))]
    exact ⟨[0], rfl, ⟨[⟨[1], 0, 1⟩], rfl, fun p mem => ⟨([1], 0), by simp_all [wirePayload]⟩⟩, trivial⟩
  · rw [first]
    refine ⟨?_, trivial⟩
    rintro session asset ⟨⟩ ⟨⟩ chunks ⟨⟩
    rw [if_pos (List.forall_mem_singleton.mpr (Finset.mem_singleton_self _))]
    exact fun _ => trivial

/-- The request for both segments fails, and from then on the chunk, which never travelled,
is known: the next request gets a reference to it. -/
theorem session_dishonest :
    openSession servingOne "a" "s" (.have_ []) = some (sessionOne ∅) ∧
    ¬ HonestRun plainEnv "s" (Announcement.have_ []).Has (sessionOne ∅) [askTwo, askOne] ∧
    (planBatch plainEnv (sessionOne ∅) "s" askTwo.reads askTwo.req).1 = .error "unknown segment 1" ∧
    (planBatch plainEnv (planBatch plainEnv (sessionOne ∅) "s" askTwo.reads askTwo.req).2 "s" askOne.reads askOne.req).1 =
      .ok ⟨[], [⟨0, [.ref (numberHash [1])]⟩]⟩ := by
  have failed : planBatch plainEnv (sessionOne ∅) "s" askTwo.reads askTwo.req =
      (.error "unknown segment 1", (sessionOne ∅).after "s" ⟨"a", ∅⟩ {0}) := rfl
  refine ⟨rfl, ?_, rfl, rfl⟩
  rw [HonestRun, failed]
  rintro ⟨kept, -⟩
  simp [AppState.after, sessionOne] at kept

end Sample

end Cavs
