import Cavs.OpProg
import Mathlib.Logic.Function.Basic

/-!
# A file tree with symbolic links

Nodes lie at physical paths. An operation names a path whose parts are resolved one after
another, through the links that are there at that moment; it changes the tree only where
its paths lead.
-/
namespace LinkFs

abbrev Name := List Char

abbrev Path := List Name

/-- A step of a path that is still to be resolved. -/
inductive Comp where
  | up
  | name (n : Name)
  deriving DecidableEq, Repr

inductive Node where
  | file (bytes : List UInt8) (executable : Bool)
  | dir
  | link (absolute : Bool) (target : List Comp)
  deriving DecidableEq, Repr

abbrev Tree := Path → Option Node

inductive FsError where
  | notFound
  | exists
  | notDirectory
  | isDirectory
  | notEmpty
  | loop
  | other
  deriving DecidableEq, Repr

section Resolve
variable (t : Tree) (follow : Bool)

/-- Go on from the directory `here`; a link on the way is left to `jump`. -/
def steps (jump : Path → List Comp → Except FsError Path) : Path → List Comp → Except FsError Path
  | here, [] => .ok here
  | here, .up :: rest => steps jump here.dropLast rest
  | here, .name n :: rest =>
      match t (here ++ [n]) with
      | some (.link absolute target) =>
          if rest = [] ∧ follow = false then .ok (here ++ [n])
          else jump (if absolute then [] else here) (target ++ rest)
      | some .dir => steps jump (here ++ [n]) rest
      | some (.file ..) => if rest = [] then .ok (here ++ [n]) else .error .notDirectory
      | none => if rest = [] then .ok (here ++ [n]) else .error .notFound

/-- Resolve through at most as many links. -/
def walk : (links : Nat) → Path → List Comp → Except FsError Path
  | 0 => steps t follow fun _ _ => .error .loop
  | links + 1 => steps t follow (walk links)

/-- Where a path leads; whether a link at its end is followed depends on the operation. -/
def locate (p : List Comp) : Except FsError Path := walk t follow 40 [] p

/-- No link lies on the way from `here`, and none at the end that would be followed. -/
def Direct (here p : Path) : Prop :=
  ∀ front rest, p = front ++ rest → front ≠ [] → (rest ≠ [] ∨ follow = true) →
    ∀ absolute target, t (here ++ front) ≠ some (.link absolute target)

variable {t follow}

theorem steps_direct {jump : Path → List Comp → Except FsError Path} {here p q : Path} (direct : Direct t follow here p)
    (h : steps t follow jump here (p.map .name) = .ok q) : q = here ++ p := by
  induction p generalizing here with
  | nil =>
      cases h
      exact (List.append_nil _).symm
  | cons n rest ih =>
      have on : rest ≠ [] ∨ follow = true → ∀ absolute target, t (here ++ [n]) ≠ some (.link absolute target) :=
        direct [n] rest rfl (List.cons_ne_nil _ _)
      rw [List.map_cons, steps] at h
      cases node : t (here ++ [n]) with
      | none =>
          rw [node] at h
          dsimp only at h
          split at h
          · rename_i last
            cases h
            rw [List.map_eq_nil_iff.mp last]
          · cases h
      | some node' =>
          rw [node] at h
          cases node' with
          | file bytes executable =>
              dsimp only at h
              split at h
              · rename_i last
                cases h
                rw [List.map_eq_nil_iff.mp last]
              · cases h
          | dir =>
              have further : Direct t follow (here ++ [n]) rest := by
                intro front back split some_ follows
                rw [List.append_assoc]
                exact direct (n :: front) back (by rw [split]; rfl) (List.cons_ne_nil _ _) follows
              rw [ih further h, List.append_assoc]
              rfl
          | link absolute target =>
              dsimp only at h
              split at h
              · rename_i last
                cases h
                rw [List.map_eq_nil_iff.mp last.1]
              · rename_i going
                rw [not_and_or, Bool.not_eq_false] at going
                exact absurd node (on (going.imp_left fun some_ none => some_ (by rw [none]; rfl)) absolute target)

/-- A direct path leads where it says. -/
theorem locate_direct {p q : Path} (direct : Direct t follow [] p) (h : locate t follow (p.map .name) = .ok q) : q = p :=
  steps_direct direct h

/-- Every directory on the way to a path stands. -/
def Leads (t : Tree) (p : Path) : Prop := ∀ q n, q ++ [n] <+: p → t q = some .dir

theorem steps_leads {jump : Path → List Comp → Except FsError Path} {here p : Path}
    (leads : ∀ q n, q ++ [n] <+: p → q ≠ [] → t (here ++ q) = some .dir)
    (last : follow = true → ∀ absolute target, t (here ++ p) ≠ some (.link absolute target)) :
    steps t follow jump here (p.map .name) = .ok (here ++ p) := by
  induction p generalizing here with
  | nil => rw [List.append_nil, List.map_nil, steps]
  | cons n rest ih =>
      rw [List.map_cons, steps]
      cases rest with
      | nil =>
          cases node : t (here ++ [n]) with
          | none => rfl
          | some node' =>
              cases node' with
              | file bytes executable => rfl
              | dir => rfl
              | link absolute target =>
                  cases follow with
                  | false => rfl
                  | true => exact absurd node (last rfl absolute target)
      | cons m more =>
          have stands : t (here ++ [n]) = some .dir := leads [n] m (by simp) (List.cons_ne_nil _ _)
          rw [stands]
          dsimp only
          rw [ih, List.append_assoc]
          · rfl
          · intro q k front filled
            rw [List.append_assoc]
            exact leads (n :: q) k (List.cons_prefix_cons.mpr ⟨rfl, front⟩) (List.cons_ne_nil _ _)
          · intro follows absolute target
            rw [List.append_assoc]
            exact last follows absolute target

/-- A path leads where it says when the directories on the way stand. -/
theorem locate_leads {p : Path} (leads : Leads t p)
    (last : follow = true → ∀ absolute target, t p ≠ some (.link absolute target)) :
    locate t follow (p.map .name) = .ok p :=
  steps_leads (fun q n front _ => leads q n front) last

/-- A missing directory on the way. -/
theorem locate_missing {p rest : Path} (leads : Leads t p) (gone : t p = none) (filled : p ≠ []) (more : rest ≠ []) :
    locate t follow ((p ++ rest).map .name) = .error .notFound := by
  have missing : ∀ (jump : Path → List Comp → Except FsError Path) (here p : Path), p ≠ [] → t (here ++ p) = none →
      (∀ q m, q ++ [m] <+: p → q ≠ [] → t (here ++ q) = some .dir) →
      steps t follow jump here ((p ++ rest).map .name) = .error .notFound := by
    intro jump here p filled gone leads
    induction p generalizing here with
    | nil => exact absurd rfl filled
    | cons k front ih =>
        rw [List.cons_append, List.map_cons, steps]
        cases front with
        | nil =>
            rw [gone]
            dsimp only
            rw [if_neg]
            simpa using more
        | cons m front =>
            have stands : t (here ++ [k]) = some .dir := leads [k] m (by simp) (List.cons_ne_nil _ _)
            rw [stands]
            dsimp only
            apply ih
            · exact List.cons_ne_nil _ _
            · rw [List.append_assoc]
              exact gone
            · intro q j atFront filled
              rw [List.append_assoc]
              exact leads (k :: q) j (List.cons_prefix_cons.mpr ⟨rfl, atFront⟩) (List.cons_ne_nil _ _)
  exact missing _ [] p filled gone fun q m atFront _ => leads q m atFront

end Resolve

/-- What is known of a node without reading it. -/
structure Meta where
  isFile : Bool
  isDir : Bool
  len : Nat
  deriving DecidableEq, Repr

def Node.meta : Node → Meta
  | .file bytes _ => ⟨true, false, bytes.length⟩
  | .dir => ⟨false, true, 0⟩
  | .link .. => ⟨false, false, 0⟩

inductive Op where
  | metadata (p : List Comp)
  | linkMetadata (p : List Comp)
  | read (p : List Comp)
  | readRange (p : List Comp) (offset n : Nat)
  | create (p : List Comp)
  | append (p : List Comp) (b : List UInt8)
  | mkdir (p : List Comp)
  | rename (p q : List Comp)
  | setExecutable (p : List Comp) (executable : Bool)
  | symlink (absolute : Bool) (target : List Comp) (p : List Comp)
  | unlink (p : List Comp)
  | rmdir (p : List Comp)
  | removeAll (p : List Comp)

@[reducible] def Op.Res : Op → Type
  | .metadata _ | .linkMetadata _ => Option Meta
  | .read _ | .readRange .. => Except FsError (List UInt8)
  | _ => Except FsError Unit

section Step
variable (t : Tree)

def nodeAt (follow : Bool) (p : List Comp) : Option Node :=
  match locate t follow p with
  | .ok q => t q
  | .error _ => none

def readAll (p : List Comp) : Except FsError (List UInt8) :=
  match locate t true p with
  | .error e => .error e
  | .ok q => match t q with
    | some (.file bytes _) => .ok bytes
    | some .dir => .error .isDirectory
    | some (.link ..) => .error .loop
    | none => .error .notFound

/-- A read that fills its buffer or fails. -/
def readSome (p : List Comp) (offset n : Nat) : Except FsError (List UInt8) :=
  match readAll t p with
  | .error e => .error e
  | .ok bytes => if offset + n ≤ bytes.length then .ok ((bytes.drop offset).take n) else .error .other

variable {t} in
theorem readSome_length {p : List Comp} {offset n : Nat} {b : List UInt8} (h : readSome t p offset n = .ok b) : b.length = n := by
  rw [readSome] at h
  split at h
  · cases h
  · split at h
    · rename_i long
      cases h
      rw [List.length_take, List.length_drop]
      omega
    · cases h

/-- Move a node with everything below it. -/
def Tree.moved (p q : Path) : Tree := fun x =>
  if q <+: x then t (p ++ x.drop q.length) else if p <+: x then none else t x

def Tree.without (p : Path) : Tree := fun x => if p <+: x then none else t x

/-- The result of an operation that acts on one node, and the tree after it. -/
def onNode (follow : Bool) (p : List Comp) (act : Option Node → Except FsError (Option Node)) : Except FsError Unit × Tree :=
  match locate t follow p with
  | .error e => (.error e, t)
  | .ok q => match act (t q) with
    | .error e => (.error e, t)
    | .ok node => (.ok (), Function.update t q node)

def createNode : Option Node → Except FsError (Option Node)
  | none => .ok (some (.file [] false))
  | some (.file _ executable) => .ok (some (.file [] executable))
  | some .dir => .error .isDirectory
  | some (.link ..) => .error .loop

def appendNode (b : List UInt8) : Option Node → Except FsError (Option Node)
  | some (.file bytes executable) => .ok (some (.file (bytes ++ b) executable))
  | some .dir => .error .isDirectory
  | some (.link ..) => .error .loop
  | none => .error .notFound

/-- A node that must not be there yet. -/
def newNode (node : Node) : Option Node → Except FsError (Option Node)
  | none => .ok (some node)
  | some _ => .error .exists

def chmodNode (executable : Bool) : Option Node → Except FsError (Option Node)
  | some (.file bytes _) => .ok (some (.file bytes executable))
  | some node => .ok (some node)
  | none => .error .notFound

def unlinkNode : Option Node → Except FsError (Option Node)
  | none => .error .notFound
  | some .dir => .error .isDirectory
  | some _ => .ok none

/-- The regular outcome of an operation. -/
def Does : (o : Op) → Tree → o.Res → Tree → Prop
  | .metadata p, t, r, u => r = (nodeAt t true p).map Node.meta ∧ u = t
  | .linkMetadata p, t, r, u => r = (nodeAt t false p).map Node.meta ∧ u = t
  | .read p, t, r, u => r = readAll t p ∧ u = t
  | .readRange p offset n, t, r, u => r = readSome t p offset n ∧ u = t
  | .create p, t, r, u => (r, u) = onNode t true p createNode
  | .append p b, t, r, u => (r, u) = onNode t true p (appendNode b)
  | .mkdir p, t, r, u => (r, u) = onNode t false p (newNode .dir)
  | .setExecutable p executable, t, r, u => (r, u) = onNode t true p (chmodNode executable)
  | .symlink absolute target p, t, r, u => (r, u) = onNode t false p (newNode (.link absolute target))
  | .unlink p, t, r, u => (r, u) = onNode t false p unlinkNode
  | .rename p q, t, r, u =>
      match locate t false p, locate t false q with
      | .ok p', .ok q' =>
          if t p' = none then r = .error .notFound ∧ u = t
          else if t q' = some .dir then r = .error .isDirectory ∧ u = t
          else r = .ok () ∧ u = Tree.moved t p' q'
      | _, _ => r = .error .notFound ∧ u = t
  | .rmdir p, t, r, u =>
      match locate t false p with
      | .ok q =>
          (t q = some .dir ∧ (∀ n, t (q ++ [n]) = none) ∧ r = .ok () ∧ u = Function.update t q none) ∨
          (¬ (t q = some .dir ∧ ∀ n, t (q ++ [n]) = none) ∧ (∃ e, r = .error e) ∧ u = t)
      | .error e => r = .error e ∧ u = t
  | .removeAll p, t, r, u =>
      match locate t false p with
      | .ok q => r = .ok () ∧ u = Tree.without t q
      | .error e => r = .error e ∧ u = t

/-- A failure without a reason in the tree. An append may be cut short, and a removal may
have removed some of what is below. -/
def Fails : (o : Op) → Tree → o.Res → Tree → Prop
  | .metadata _, t, r, u | .linkMetadata _, t, r, u => r = none ∧ u = t
  | .read _, t, r, u | .readRange .., t, r, u => (∃ e, r = .error e) ∧ u = t
  | .append p b, t, r, u => (∃ e, r = .error e) ∧ (u = t ∨ ∃ n, u = (onNode t true p (appendNode (b.take n))).2)
  | .removeAll p, t, r, u => (∃ e, r = .error e) ∧ ∀ x, u x = t x ∨ ∃ q, locate t false p = .ok q ∧ q <+: x ∧ u x = none
  | .create _, t, r, u | .mkdir _, t, r, u | .rename .., t, r, u | .setExecutable .., t, r, u | .symlink .., t, r, u
  | .unlink _, t, r, u | .rmdir _, t, r, u => (∃ e, r = .error e) ∧ u = t

def Step (mayFail : Op → Tree → Prop) (o : Op) (t : Tree) (r : o.Res) (u : Tree) : Prop :=
  Does o t r u ∨ (mayFail o t ∧ Fails o t r u)

section Lead
variable {t} {follow : Bool} {p : Path}

theorem nodeAt_leads (leads : Leads t p)
    (last : follow = true → ∀ absolute target, t p ≠ some (.link absolute target)) :
    nodeAt t follow (p.map .name) = t p := by
  rw [nodeAt, locate_leads leads last]

/-- Where nothing is, nothing is found, unless a link leads away from there. -/
theorem nodeAt_none (direct : Direct t follow [] p) (gone : t p = none) : nodeAt t follow (p.map .name) = none := by
  rw [nodeAt]
  cases found : locate t follow (p.map .name) with
  | error e => rfl
  | ok q =>
      rw [locate_direct direct found]
      exact gone

theorem readAll_leads (leads : Leads t p) {bytes : List UInt8} {executable : Bool}
    (file : t p = some (.file bytes executable)) : readAll t (p.map .name) = .ok bytes := by
  have found : locate t true (p.map .name) = .ok p := by
    apply locate_leads leads
    intro _ absolute target link
    rw [file] at link
    cases link
  rw [readAll, found]
  dsimp only
  rw [file]

variable {act : Option Node → Except FsError (Option Node)}

theorem onNode_ok (leads : Leads t p) (last : follow = true → ∀ absolute target, t p ≠ some (.link absolute target))
    {x : Option Node} (acted : act (t p) = .ok x) :
    onNode t follow (p.map .name) act = (.ok (), Function.update t p x) := by
  rw [onNode, locate_leads leads last]
  dsimp only
  rw [acted]

theorem onNode_error (leads : Leads t p) (last : follow = true → ∀ absolute target, t p ≠ some (.link absolute target))
    {e : FsError} (refused : act (t p) = .error e) : onNode t follow (p.map .name) act = (.error e, t) := by
  rw [onNode, locate_leads leads last]
  dsimp only
  rw [refused]

end Lead

variable {t} in
/-- Every operation has a regular outcome. -/
theorem does_total (o : Op) (t : Tree) : ∃ r u, Does o t r u := by
  cases o with
  | metadata p | linkMetadata p | read p | readRange p offset n => exact ⟨_, _, rfl, rfl⟩
  | create p | append p b | mkdir p | setExecutable p executable | symlink absolute target p | unlink p =>
      exact ⟨_, _, rfl⟩
  | rename p q =>
      simp only [Does]
      split
      · split
        · exact ⟨_, _, rfl, rfl⟩
        · split
          · exact ⟨_, _, rfl, rfl⟩
          · exact ⟨_, _, rfl, rfl⟩
      · exact ⟨_, _, rfl, rfl⟩
  | rmdir p =>
      simp only [Does]
      split
      · rename_i q _
        by_cases empty : t q = some .dir ∧ ∀ n, t (q ++ [n]) = none
        · exact ⟨_, _, .inl ⟨empty.1, empty.2, rfl, rfl⟩⟩
        · exact ⟨.error .notEmpty, _, .inr ⟨empty, ⟨_, rfl⟩, rfl⟩⟩
      · exact ⟨_, _, rfl, rfl⟩
  | removeAll p =>
      simp only [Does]
      split
      · exact ⟨_, _, rfl, rfl⟩
      · exact ⟨_, _, rfl, rfl⟩

end Step

/-- A place below the root, part by part. -/
def below (root rel : Path) : List Comp := (root ++ rel).map .name

end LinkFs
