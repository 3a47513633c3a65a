import Cavs.PlanApply
import Cavs.PlanTiling

/-!
# What the steps of an apply do

The helpers of an apply, run where no link is on the way: what each of them ends in, and
that every tree it goes through is in a given set. An append may be cut short and a removal
may stop in the middle; then the run ends in an error or goes on from what is left.
-/
namespace Cavs
open FileProg (Bytes)
open Function (update update_of_ne update_self)
open LinkFs (Comp Does FsError Leads Meta Name Node Tree below locate locate_leads locate_missing nodeAt
  nodeAt_leads nodeAt_none onNode onNode_error onNode_ok readAll_leads readSome)
open OpProg (Cmd Prog)
open OpProg.Cmd (Wp attempt forEach throw)
open List (append_assoc append_nil nil_prefix prefix_append prefix_concat_iff prefix_nil prefix_refl)

/-- The operations that a cut may leave half done. -/
def tears (torn : Prop) : LinkFs.Op → Tree → Prop
  | .append .., _ => torn
  | .removeAll _, _ => torn
  | _, _ => False

/-- Every tree of a run from `v` is in `I`; the run ends in an error as `E` or in a value as `Q` tells. -/
abbrev ApplyWp (torn : Prop) (I : Tree → Prop) (E : ApplyError → Tree → Prop) {α : Type} (Q : α → Tree → Prop)
    (m : Apply α) (v : Tree) : Prop := Cmd.Wp (LinkFs.Step (tears torn)) I E Q m v

section Calls
variable {torn : Prop} {I : Tree → Prop} {E : ApplyError → Tree → Prop} {v u : Tree} {p : List Comp}

theorem fs_wp {o : LinkFs.Op} {Q : o.Res → Tree → Prop} (sure : ¬ tears torn o v) (here : I v)
    (h : ∀ r u, Does o v r u → Q r u) : ApplyWp torn I E Q (fs o) v :=
  Wp.op here fun r u step => step.elim (h r u) fun failed => absurd failed.1 sure

theorem leads_update {v : Tree} {p : LinkFs.Path} (leads : Leads v p) (node : Option Node) :
    Leads (update v p node) p := by
  intro q n front
  rw [update_of_ne, leads q n front]
  rintro rfl
  exact absurd front.length_le (by simp)

variable (here : I v)
include here

theorem metadata_wp {Q : Option Meta → Tree → Prop} (h : Q ((nodeAt v true p).map Node.meta) v) :
    ApplyWp torn I E Q (fs (.metadata p)) v :=
  fs_wp id here fun _ _ does => does.1 ▸ does.2 ▸ h

theorem linkMetadata_wp {Q : Option Meta → Tree → Prop}
    (h : Q ((nodeAt v false p).map Node.meta) v) : ApplyWp torn I E Q (fs (.linkMetadata p)) v :=
  fs_wp id here fun _ _ does => does.1 ▸ does.2 ▸ h

theorem read_wp {Q : Except FsError Bytes → Tree → Prop} (h : Q (LinkFs.readAll v p) v) :
    ApplyWp torn I E Q (fs (.read p)) v :=
  fs_wp id here fun _ _ does => does.1 ▸ does.2 ▸ h

theorem readRange_wp {offset n : Nat} {Q : Except FsError Bytes → Tree → Prop}
    (h : Q (readSome v p offset n) v) : ApplyWp torn I E Q (fs (.readRange p offset n)) v :=
  fs_wp id here fun _ _ does => does.1 ▸ does.2 ▸ h

variable {Q : Except FsError Unit → Tree → Prop} {r : Except FsError Unit}

theorem create_wp (does : onNode v true p LinkFs.createNode = (r, u)) (h : Q r u) :
    ApplyWp torn I E Q (fs (.create p)) v :=
  fs_wp id here fun _ _ same => by cases (show (_, _) = onNode v true p _ from same).trans does; exact h

theorem mkdir_wp (does : onNode v false p (LinkFs.newNode .dir) = (r, u)) (h : Q r u) :
    ApplyWp torn I E Q (fs (.mkdir p)) v :=
  fs_wp id here fun _ _ same => by cases (show (_, _) = onNode v false p _ from same).trans does; exact h

theorem setExecutable_wp {executable : Bool} (does : onNode v true p (LinkFs.chmodNode executable) = (r, u)) (h : Q r u) :
    ApplyWp torn I E Q (fs (.setExecutable p executable)) v :=
  fs_wp id here fun _ _ same => by cases (show (_, _) = onNode v true p _ from same).trans does; exact h

theorem symlink_wp {absolute : Bool} {target : List Comp}
    (does : onNode v false p (LinkFs.newNode (.link absolute target)) = (r, u)) (h : Q r u) :
    ApplyWp torn I E Q (fs (.symlink absolute target p)) v :=
  fs_wp id here fun _ _ same => by cases (show (_, _) = onNode v false p _ from same).trans does; exact h

theorem unlink_wp (does : onNode v false p LinkFs.unlinkNode = (r, u)) (h : Q r u) :
    ApplyWp torn I E Q (fs (.unlink p)) v :=
  fs_wp id here fun _ _ same => by cases (show (_, _) = onNode v false p _ from same).trans does; exact h

theorem rmdir_wp {p : LinkFs.Path} (leads : Leads v p) {Q : Except FsError Unit → Tree → Prop}
    (empty : v p = some .dir → (∀ n, v (p ++ [n]) = none) → Q (.ok ()) (update v p none))
    (full : ¬ (v p = some .dir ∧ ∀ n, v (p ++ [n]) = none) → ∀ e, Q (.error e) v) :
    ApplyWp torn I E Q (fs (.rmdir (p.map Comp.name))) v := by
  apply fs_wp id here
  intro r u does
  rw [Does, locate_leads leads fun no => by cases no] at does
  rcases does with ⟨stands, none_, rfl, rfl⟩ | ⟨other, ⟨e, rfl⟩, rfl⟩
  · exact empty stands none_
  · exact full other e

end Calls

section Directories
variable {torn : Prop} {I : Tree → Prop} {E : ApplyError → Tree → Prop} {v : Tree} {p : LinkFs.Path} {n : Name}
  {Q : Unit → Tree → Prop}

/-- A tree in which a directory was made, with those above it. -/
def made (v : Tree) (p : LinkFs.Path) : Tree := fun x => if x <+: p then some .dir else v x

theorem made_above {p x : LinkFs.Path} (h : x <+: p) : made v p x = some .dir := if_pos h

theorem made_of_not {p x : LinkFs.Path} (h : ¬ x <+: p) : made v p x = v x := if_neg h

theorem made_eq (stands : ∀ q, q <+: p → v q = some .dir) : made v p = v := by
  funext x
  by_cases h : x <+: p
  · rw [made_above h, stands x h]
  · exact made_of_not h

/-- Nothing but directories is on the way to a path, and what stands on the way has a way to it. -/
structure Passable (v : Tree) (p : LinkFs.Path) : Prop where
  root : v [] = some .dir
  clear : ∀ q, q <+: p → v q = some .dir ∨ v q = none
  closed : ∀ q n, q ++ [n] <+: p → v (q ++ [n]) = some .dir → v q = some .dir

theorem Passable.front {p q : LinkFs.Path} (h : Passable v p) (front : q <+: p) : Passable v q :=
  ⟨h.root, fun r atFront => h.clear r (atFront.trans front), fun r n atFront => h.closed r n (atFront.trans front)⟩

/-- Above a directory that stands every directory does. -/
theorem Passable.stands (h : Passable v p) (here : v p = some .dir) {q : LinkFs.Path} (front : q <+: p) :
    v q = some .dir := by
  induction p using List.reverseRecOn with
  | nil =>
      rw [prefix_nil.mp front]
      exact here
  | append_singleton p n ih =>
      rcases prefix_concat_iff.mp front with rfl | above
      · exact here
      · exact ih (h.front (prefix_append _ _)) (h.closed p n (prefix_refl _) here) above

theorem Passable.leads (h : Passable v p) (here : v p = some .dir) :
    Leads v (p ++ [n]) := by
  intro q m front
  have shorter : q <+: p := by
    rcases prefix_concat_iff.mp front with same | above
    · rw [(List.append_singleton_inj.mp same).1]
    · exact (prefix_append _ _).trans above
  exact h.stands here shorter

/-- The first directory that is missing on the way. -/
theorem Passable.missing (h : Passable v p) (gone : v p = none) :
    ∃ q rest, p = q ++ rest ∧ q ≠ [] ∧ v q = none ∧ Leads v q := by
  induction p using List.reverseRecOn with
  | nil =>
      rw [h.root] at gone
      cases gone
  | append_singleton p n ih =>
      rcases h.clear p (prefix_append _ _) with above | missing
      · exact ⟨p ++ [n], [], (append_nil _).symm, by simp, gone, (h.front (prefix_append _ _)).leads above⟩
      · obtain ⟨q, rest, rfl, filled, none_, leads⟩ := ih (h.front (prefix_append _ _)) missing
        exact ⟨q, rest ++ [n], append_assoc .., filled, none_, leads⟩

theorem Passable.made (h : Passable v (p ++ [n])) : Passable (made v p) (p ++ [n]) := by
  refine ⟨made_above nil_prefix, fun q front => ?_, fun q m front stands => ?_⟩
  · by_cases above : q <+: p
    · exact .inl (made_above above)
    · rw [made_of_not above]
      exact h.clear q front
  · rcases prefix_concat_iff.mp front with same | above
    · rw [(List.append_singleton_inj.mp same).1]
      exact made_above (prefix_refl _)
    · exact made_above ((prefix_append _ _).trans above)

theorem not_prefix_snoc : ¬ p ++ [n] <+: p := by
  intro h
  have long := h.length_le
  rw [List.length_append, List.length_singleton] at long
  omega

/-- One more directory below those that were made. -/
theorem update_made :
    update (made v p) (p ++ [n]) (some .dir) = made v (p ++ [n]) := by
  funext x
  by_cases here : x = p ++ [n]
  · rw [here, update_self, made_above (prefix_refl _)]
  · rw [update_of_ne here]
    by_cases above : x <+: p
    · rw [made_above above, made_above (above.trans (prefix_append _ _))]
    · rw [made_of_not above, made_of_not]
      intro front
      rcases prefix_concat_iff.mp front with same | higher
      · exact here same
      · exact above higher

theorem createUp_wp (h : Passable v p) (inv : ∀ q, q <+: p → I (made v q)) (done : Q () (made v p)) :
    ApplyWp torn I E Q (createUp (p.map Comp.name).reverse) v := by
  induction p using List.reverseRecOn generalizing Q with
  | nil =>
      have same : Cavs.made v [] = v := made_eq fun q front => by rw [prefix_nil.mp front, h.root]
      rw [same] at done
      exact Wp.pure done
  | append_singleton p n ih =>
      have start : Cavs.made v [] = v := made_eq fun q front => by rw [prefix_nil.mp front, h.root]
      have here : I v := start ▸ inv [] nil_prefix
      have above : p <+: p ++ [n] := prefix_append _ _
      have whole : (Comp.name n :: (p.map Comp.name).reverse).reverse = (p ++ [n]).map Comp.name := by simp
      rw [show ((p ++ [n]).map Comp.name).reverse = Comp.name n :: (p.map Comp.name).reverse by simp, createUp, whole]
      apply Wp.bind
      rcases h.clear _ (prefix_refl _) with stands | gone
      · -- the directory is there already
        have leads : Leads v (p ++ [n]) := (h.front above).leads (h.closed p n (prefix_refl _) stands)
        apply mkdir_wp here (onNode_error leads (fun no => by cases no) (e := .exists) (by rw [stands]; rfl))
        change ApplyWp torn I E Q (dirOr ((p ++ [n]).map Comp.name) .exists) v
        rw [dirOr]
        apply Wp.bind
        apply metadata_wp here
        rw [nodeAt_leads leads (fun _ absolute target link => by rw [stands] at link; cases link), stands]
        rw [made_eq fun q front => h.stands stands front] at done
        exact Wp.pure done
      · rcases h.clear p above with stands | missing
        · -- only the last directory is missing
          have same : Cavs.made v p = v := made_eq fun q front => (h.front above).stands stands front
          apply mkdir_wp here (onNode_ok ((h.front above).leads stands) (fun no => by cases no)
            (x := some .dir) (by rw [gone]; rfl))
          rw [← same, update_made]
          exact Wp.pure done
        · obtain ⟨q, rest, rfl, filled, none_, leads⟩ := (h.front above).missing missing
          apply mkdir_wp here (r := .error .notFound) (u := v)
          · rw [onNode, append_assoc, locate_missing leads none_ filled (by simp)]
          · apply Wp.bind
            apply ih (h.front above) fun r front => inv r (front.trans above)
            apply Wp.bind
            have further := h.made
            have leads' : Leads (Cavs.made v (q ++ rest)) (q ++ rest ++ [n]) := (further.front above).leads (made_above (prefix_refl _))
            apply mkdir_wp (inv _ above) (onNode_ok leads' (fun no => by cases no) (x := some .dir)
              (by rw [made_of_not not_prefix_snoc, gone]; rfl))
            rw [update_made]
            exact Wp.pure done

theorem createDirAll_wp (h : Passable v p) (inv : ∀ q, q <+: p → I (made v q)) (done : Q () (made v p)) :
    ApplyWp torn I E Q (createDirAll (p.map Comp.name)) v := createUp_wp h inv done

/-- Where all directories stand, none is made. -/
theorem createDirAll_stands (stands : ∀ q, q <+: p → v q = some .dir) (here : I v) (done : Q () v) :
    ApplyWp torn I E Q (createDirAll (p.map Comp.name)) v := by
  apply createDirAll_wp
  · exact ⟨stands [] nil_prefix, fun q front => .inl (stands q front),
      fun q n front _ => stands q ((prefix_append _ _).trans front)⟩
  · intro q front
    rw [made_eq fun r above => stands r (above.trans front)]
    exact here
  · rw [made_eq stands]
    exact done

end Directories

section Files
variable {torn : Prop} {I : Tree → Prop} {E : ApplyError → Tree → Prop} {v : Tree} {env : ApplyEnv} {p : LinkFs.Path}
  {executable : Bool}

theorem file_last {bytes : Bytes} (file : v p = some (.file bytes executable)) {follow : Bool} :
    follow = true → ∀ absolute target, v p ≠ some (.link absolute target) := by
  intro _ absolute target link
  rw [file] at link
  cases link

variable {size : UInt64} {expected : ChunkHash}

theorem fileMatches_none {Q : Bool → Tree → Prop} (absent : nodeAt v true (p.map Comp.name) = none) (here : I v)
    (done : Q false v) :
    ApplyWp torn I E Q (fileMatches env (p.map Comp.name) size expected) v := by
  rw [fileMatches]
  apply Wp.bind
  apply metadata_wp here
  rw [absent]
  exact Wp.pure done

variable {bytes : Bytes} (leads : Leads v p) (file : v p = some (.file bytes executable))
  (here : I v)
include leads file here

theorem hashFile_wp {Q : ChunkHash → Tree → Prop} (done : Q (env.hash bytes) v) :
    ApplyWp torn I E Q (hashFile env (p.map Comp.name)) v := by
  rw [hashFile]
  apply Wp.bind
  apply read_wp here
  rw [readAll_leads leads file]
  exact Wp.pure done

theorem fileMatches_file {Q : Bool → Tree → Prop}
    (done : Q (decide (bytes.length = size.toNat ∧ env.hash bytes = expected)) v) :
    ApplyWp torn I E Q (fileMatches env (p.map Comp.name) size expected) v := by
  rw [fileMatches]
  apply Wp.bind
  apply metadata_wp here
  rw [nodeAt_leads leads (file_last file), file]
  by_cases long : bytes.length = size.toNat
  · change ApplyWp torn I E Q (if true = true ∧ bytes.length = size.toNat then _ else _) v
    rw [if_pos ⟨rfl, long⟩]
    apply Wp.bind
    apply Wp.attempt
    apply hashFile_wp leads file here
    simp only [long, true_and] at done
    exact Wp.pure done
  · change ApplyWp torn I E Q (if true = true ∧ bytes.length = size.toNat then _ else _) v
    rw [if_neg fun both => long both.2]
    simp only [long, false_and, decide_false] at done
    exact Wp.pure done

theorem setExecutable_file {wanted : Bool} {Q : Unit → Tree → Prop}
    (done : Q () (update v p (some (.file bytes wanted)))) :
    ApplyWp torn I E Q (setExecutable (p.map Comp.name) wanted) v := by
  rw [setExecutable]
  apply Wp.bind
  apply metadata_wp here
  rw [nodeAt_leads leads (file_last file), file]
  apply Wp.bind
  apply setExecutable_wp here (onNode_ok leads (file_last file) (x := some (.file bytes wanted)) (by rw [file]; rfl))
  exact Wp.pure done

/-- What is appended comes behind what is there; a cut leaves a part of it. -/
theorem append_wp {b : Bytes} {Q : Except FsError Unit → Tree → Prop}
    (done : Q (.ok ()) (update v p (some (.file (bytes ++ b) executable))))
    (cut : torn → ∀ e n, Q (.error e) (update v p (some (.file (bytes ++ b.take n) executable)))) :
    ApplyWp torn I E Q (fs (.append (p.map Comp.name) b)) v := by
  have does : ∀ c : Bytes, onNode v true (p.map Comp.name) (LinkFs.appendNode c) =
      (.ok (), update v p (some (.file (bytes ++ c) executable))) :=
    fun c => onNode_ok leads (file_last file) (by rw [file]; rfl)
  refine Wp.op here fun r u step => ?_
  rcases step with same | ⟨may, ⟨e, rfl⟩, left⟩
  · cases (show (r, u) = onNode v true _ _ from same).trans (does b)
    exact done
  · rcases left with rfl | ⟨n, rfl⟩
    · have whole := cut may e 0
      rwa [List.take_zero, append_nil, ← file, Function.update_eq_self] at whole
    · rw [does]
      exact cut may e n

end Files

section Copies
variable {torn : Prop} {I : Tree → Prop} {E : ApplyError → Tree → Prop} {p : LinkFs.Path} {x : Bool} {F : Bytes → Tree} {whole : Bytes}
  {Q : Unit → Tree → Prop}

/-- A file that fills until it is whole; the tree is told by its bytes. -/
structure Fills (torn : Prop) (I : Tree → Prop) (E : ApplyError → Tree → Prop) (p : LinkFs.Path) (x : Bool)
    (F : Bytes → Tree) (whole : Bytes) : Prop where
  leads : ∀ b, Leads (F b) p
  file : ∀ b, F b p = some (.file b x)
  rewrites : ∀ b c, update (F b) p (some (.file c x)) = F c
  inv : ∀ b, b <+: whole → I (F b)
  cut : torn → ∀ e b, b <+: whole → E e (F b)

theorem Fills.append (fills : Fills torn I E p x F whole) {bytes b : Bytes} (front : bytes ++ b <+: whole)
    {k : Apply Unit} (next : ApplyWp torn I E Q k (F (bytes ++ b))) :
    ApplyWp torn I E Q (do io (← fs (.append (p.map Comp.name) b)); k) (F bytes) := by
  apply Wp.bind
  apply append_wp (fills.leads _) (fills.file _) (fills.inv _ ((prefix_append _ _).trans front))
  · rw [fills.rewrites]
    exact Wp.bind (Wp.pure next)
  · intro may e n
    rw [fills.rewrites]
    refine Wp.bind (Wp.throw (fills.cut may _ _ ?_))
    exact ((List.prefix_append_right_inj _).mpr (List.take_prefix _ _)).trans front

/-- The old files as they are in a tree. -/
def treeSource (plan : OfflinePlan) (old : LinkFs.Path) (t : Tree) : OldSource where
  readRange id offset n :=
    match oldPath plan old id with
    | none => .error (.invalid s!"op references unknown old entry {id}")
    | some source => match read : readSome t source offset.toNat n with
      | .ok b => .ok ⟨b, LinkFs.readSome_length read⟩
      | .error _ => .error (.io .other)

variable {plan : OfflinePlan} {old : LinkFs.Path} {t : Tree} {id : UInt32}

theorem treeSource_ok {offset : UInt64} {n : Nat} {b : { b : Bytes // b.length = n }}
    (h : (treeSource plan old t).readRange id offset n = .ok b) :
    ∃ source, oldPath plan old id = some source ∧ readSome t source offset.toNat n = .ok b.1 := by
  rw [treeSource] at h
  dsimp only at h
  split at h
  · cases h
  · rename_i source found
    split at h
    · rename_i b read
      cases h
      exact ⟨source, found, read⟩
    · cases h

/-- What can be read of the old files is the same however far the file has grown. -/
def SourceReads (plan : OfflinePlan) (old : LinkFs.Path) (t : Tree) (F : Bytes → Tree) (whole : Bytes) : Prop :=
  ∀ id source offset n b, oldPath plan old id = some source → readSome t source offset n = .ok b →
    ∀ c, c <+: whole → readSome (F c) source offset n = .ok b

theorem copyTo_wp (fills : Fills torn I E p x F whole) (reads : SourceReads plan old t F whole)
    {source : List Comp} (found : oldPath plan old id = some source) {offset : UInt64} {len done : Nat}
    {bytes copied : Bytes} (copies : copyRange (treeSource plan old t) id offset len done = .ok copied)
    (front : bytes ++ copied <+: whole) (end_ : Q () (F (bytes ++ copied))) :
    ApplyWp torn I E Q (copyTo source (p.map Comp.name) offset len done) (F bytes) := by
  generalize path : p.map Comp.name = staged
  fun_induction copyTo source staged offset len done generalizing bytes copied with
  | case1 done more n =>
      rename_i ih
      rw [copyRange, if_pos more] at copies
      obtain ⟨buf, read, copies⟩ := Outcome.ok_of_bindO copies
      obtain ⟨rest, tail, copies⟩ := Outcome.ok_of_bindO copies
      cases copies
      have readable : (treeSource plan old t).readRange id (offset + UInt64.ofNat done) (min (len - done) readChunk8) = .ok buf := by
        cases ranged : (treeSource plan old t).readRange id (offset + UInt64.ofNat done) (min (len - done) readChunk8) with
        | ok b =>
            rw [ranged] at read
            cases read
            rfl
        | error e =>
            rw [ranged] at read
            cases read
      obtain ⟨source', found', same⟩ := treeSource_ok readable
      cases found.symm.trans found'
      apply Wp.bind
      apply readRange_wp (fills.inv _ ((prefix_append _ _).trans front))
      rw [reads id source _ _ _ found same _ ((prefix_append _ _).trans front)]
      apply Wp.bind
      apply Wp.pure
      subst path
      rw [← append_assoc] at front
      apply fills.append ((prefix_append _ _).trans front)
      apply ih tail front
      rwa [append_assoc]
  | case2 done last =>
      rw [copyRange, if_neg last] at copies
      cases copies
      rw [append_nil] at end_
      exact Wp.pure end_

theorem stageOp_wp (fills : Fills torn I E p x F whole) (reads : SourceReads plan old t F whole) (o : PlanOp)
    {bytes written : Bytes} (writes : writeOps plan.blob (treeSource plan old t) o.newEntryId [o] = .ok written)
    (front : bytes ++ written <+: whole) (end_ : Q () (F (bytes ++ written))) : ApplyWp torn I E Q (stageOp plan old (p.map Comp.name) o) (F bytes) := by
  unfold writeOps at writes
  rw [if_pos rfl] at writes
  obtain ⟨first, here, writes⟩ := Outcome.ok_of_bindO writes
  obtain ⟨rest, none_, writes⟩ := Outcome.ok_of_bindO writes
  cases none_
  cases writes
  rw [append_nil] at end_ front
  cases o with
  | copyOld oldId offset newId newOffset len =>
      rw [stageOp]
      cases found : oldPath plan old oldId with
      | some source => exact copyTo_wp fills reads found here front end_
      | none =>
          dsimp only
          by_cases empty : len = 0
          · subst empty
            rw [if_pos rfl]
            dsimp only at here
            rw [copyRange, if_neg (by decide)] at here
            cases here
            rw [append_nil] at end_
            exact Wp.pure end_
          · have more : 0 < len.toNat := Nat.pos_of_ne_zero fun zero => empty (UInt64.toNat_inj.mp zero)
            dsimp only at here
            rw [copyRange, if_pos more] at here
            obtain ⟨buf, read, -⟩ := Outcome.ok_of_bindO here
            simp [treeSource, found, Outcome.ofExcept] at read
  | inlined newId newOffset len blobOffset =>
      rw [stageOp]
      dsimp only at here
      rw [here]
      apply Wp.bind
      apply append_wp (fills.leads _) (fills.file _) (fills.inv _ ((prefix_append _ _).trans front))
      · rw [fills.rewrites]
        exact Wp.pure end_
      · intro may e n
        rw [fills.rewrites]
        refine Wp.throw (fills.cut may _ _ ?_)
        exact ((List.prefix_append_right_inj _).mpr (List.take_prefix _ _)).trans front

/-- The operations of one entry, one after another. -/
theorem stageOps_wp (fills : Fills torn I E p x F whole) (reads : SourceReads plan old t F whole)
    {ops : List PlanOp} {bytes written : Bytes}
    (writes : writeOps plan.blob (treeSource plan old t) id ops = .ok written)
    (front : bytes ++ written <+: whole) (end_ : Q () (F (bytes ++ written))) :
    ApplyWp torn I E Q (forEach (ops.filter fun o => o.newEntryId = id) (stageOp plan old (p.map Comp.name))) (F bytes) := by
  induction ops generalizing bytes written with
  | nil =>
      cases writes
      rw [append_nil] at end_
      exact Wp.pure end_
  | cons o rest ih =>
      unfold writeOps at writes
      by_cases mine : o.newEntryId = id
      · rw [if_pos mine] at writes
        obtain ⟨first, here, writes⟩ := Outcome.ok_of_bindO writes
        obtain ⟨others, later, writes⟩ := Outcome.ok_of_bindO writes
        cases writes
        rw [List.filter_cons_of_pos (by simpa using mine), forEach]
        apply Wp.bind
        apply stageOp_wp fills reads o
        · unfold writeOps
          rw [if_pos rfl, here]
          exact congrArg Outcome.ok (append_nil _)
        · exact (by rw [← append_assoc] at front; exact (prefix_append _ _).trans front)
        · rw [← append_assoc] at front
          apply ih later front
          rwa [append_assoc]
      · rw [if_neg mine] at writes
        rw [List.filter_cons_of_neg (by simpa using mine)]
        exact ih writes front end_

end Copies

section Journal
variable {torn : Prop} {I : Tree → Prop} {E : ApplyError → Tree → Prop} {v : Tree} {env : ApplyEnv} {out : LinkFs.Path}

theorem moved_to {p q : LinkFs.Path} (more : LinkFs.Path) : Tree.moved v p q (q ++ more) = v (p ++ more) := by
  rw [Tree.moved, if_pos (prefix_append _ _), List.drop_left]

theorem moved_from {p q x : LinkFs.Path} (front : p <+: x) (off : ¬ q <+: x) : Tree.moved v p q x = none := by
  rw [Tree.moved, if_neg off, if_pos front]

theorem moved_off {p q x : LinkFs.Path} (off : ¬ p <+: x) (off' : ¬ q <+: x) : Tree.moved v p q x = v x := by
  rw [Tree.moved, if_neg off', if_neg off]

theorem rename_wp {p q : LinkFs.Path} (leads : Leads v p) (leads' : Leads v q) (there : v p ≠ none)
    (free : v q ≠ some .dir) {Q : Except FsError Unit → Tree → Prop} (here : I v)
    (done : Q (.ok ()) (Tree.moved v p q)) :
    ApplyWp torn I E Q (fs (.rename (p.map Comp.name) (q.map Comp.name))) v := by
  apply fs_wp id here
  intro r u does
  have from_ : locate v false (p.map Comp.name) = .ok p := locate_leads leads fun no => by cases no
  have to_ : locate v false (q.map Comp.name) = .ok q := locate_leads leads' fun no => by cases no
  rw [Does, from_, to_] at does
  dsimp only at does
  rw [if_neg there, if_neg free] at does
  rw [does.1, does.2]
  exact done

theorem leads_in (stands : ∀ q, q <+: out → v q = some .dir) (n : Name) : Leads v (out ++ [n]) := by
  intro q m front
  apply stands
  rcases prefix_concat_iff.mp front with same | above
  · rw [(List.append_singleton_inj.mp same).1]
  · exact (prefix_append _ _).trans above

theorem inOut_eq (n : Name) : inOut out n = (out ++ [n]).map Comp.name := rfl

/-- The journal is written beside its place and moved there. -/
theorem saveJournal_wp {journal : ApplyJournal} (stands : ∀ q, q <+: out → v q = some .dir)
    (free : v (out ++ [journalTmp]) = none ∨ ∃ b x, v (out ++ [journalTmp]) = some (.file b x))
    (place : v (out ++ [journalFile]) ≠ some .dir) {Q : Unit → Tree → Prop} (here : I v)
    (inv : ∀ b x, I (update v (out ++ [journalTmp]) (some (.file b x))))
    (cut : torn → ∀ e b x, E e (update v (out ++ [journalTmp]) (some (.file b x))))
    (done : ∀ x, Q () (Tree.moved (update v (out ++ [journalTmp]) (some (.file (env.encodeJournal journal) x)))
      (out ++ [journalTmp]) (out ++ [journalFile]))) :
    ApplyWp torn I E Q (saveJournal env out journal) v := by
  have other : out ++ [journalFile] ≠ out ++ [journalTmp] := by
    rw [ne_eq, List.append_cancel_left_eq]
    decide
  have above : ∀ q, q <+: out → q ≠ out ++ [journalTmp] := by
    rintro q front rfl
    exact not_prefix_snoc front
  have stands' : ∀ b x q, q <+: out → update v (out ++ [journalTmp]) (some (.file b x)) q = some .dir := by
    intro b x q front
    rw [update_of_ne (above q front), stands q front]
  obtain ⟨x, created⟩ : ∃ x, LinkFs.createNode (v (out ++ [journalTmp])) = .ok (some (.file [] x)) := by
    rcases free with none_ | ⟨b, x, file⟩
    · exact ⟨false, by rw [none_]; rfl⟩
    · exact ⟨x, by rw [file]; rfl⟩
  have last : true = true → ∀ absolute target, v (out ++ [journalTmp]) ≠ some (.link absolute target) := by
    intro _ absolute target link
    rw [link] at created
    cases created
  rw [saveJournal, inOut_eq, inOut_eq]
  apply Wp.bind
  apply createDirAll_stands stands here
  apply Wp.bind
  apply create_wp here (onNode_ok (leads_in stands _) last created)
  apply Wp.bind
  apply Wp.pure
  apply Wp.bind
  apply append_wp (leads_in (stands' [] x) _) (update_self ..) (inv _ _)
  · rw [Function.update_idem, List.nil_append]
    apply Wp.bind
    apply Wp.pure
    apply Wp.bind
    apply rename_wp (leads_in (stands' _ x) _) (leads_in (stands' _ x) _) (by rw [update_self]; exact Option.some_ne_none _)
      (by rwa [update_of_ne other]) (inv _ _)
    exact Wp.pure (done x)
  · intro may e n
    rw [Function.update_idem]
    exact Wp.bind (Wp.throw (cut may _ _ _))

/-- A journal of this plan, or none, lets the apply go on. -/
theorem checkJournal_wp {identity : String} (stands : ∀ q, q <+: out → v q = some .dir)
    (own : v (out ++ [journalFile]) = none ∨ ∃ b x journal, v (out ++ [journalFile]) = some (.file b x) ∧
      env.decodeJournal b = some journal ∧ journal.planBlake3 = identity)
    {Q : Unit → Tree → Prop} (here : I v) (done : Q () v) : ApplyWp torn I E Q (checkJournal env out identity) v := by
  rw [checkJournal, inOut_eq]
  apply Wp.bind
  apply metadata_wp here
  rcases own with none_ | ⟨b, x, journal, file, decoded, same⟩
  · rw [nodeAt_leads (leads_in stands _) (fun _ absolute target link => by rw [none_] at link; cases link), none_]
    exact Wp.pure done
  · rw [nodeAt_leads (leads_in stands _) (file_last file), file]
    apply Wp.bind
    apply read_wp here
    rw [readAll_leads (leads_in stands _) file]
    apply Wp.bind
    apply Wp.pure
    rw [decoded]
    change ApplyWp torn I E Q (if journal.planBlake3 = identity then pure () else _) v
    rw [if_pos same]
    exact Wp.pure done

end Journal
end Cavs
