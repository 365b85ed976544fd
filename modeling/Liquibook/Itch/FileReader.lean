import Liquibook.Itch.Framing
import Mathlib.Logic.Function.Basic

/-!
# File readers and what they own

`ItchFileReader` of `itch/file_reader.cpp` maps a file into memory and unmaps it when it
is destroyed.  It can be moved but not copied: the object it is moved from is left as if it
had been constructed on an empty file.  The constructor is the only part that may throw,
at each of its three system calls, and closes the descriptor that it has opened on
every way out.

Here a process creates, moves and destroys such objects under names, and the system answers
its calls as it likes: a call may fail, and a descriptor or an address that it
returns is any that is not in use.  Closing a descriptor that is not open and unmapping
what is not mapped are errors that no step of the process gets over.

## Main definitions

* `Os`, `FileReader` — what the process holds of the system, and an object.
* `FileReader.construct`, `FileReader.reset`, `FileReader.nextRawMessage` — the members.
* `Process`, `Process.step`, `Process.Lawful` — a process that uses file readers.
* `Process.Inv` — the invariant.

## Main results

* `Process.Inv.step` — **every step keeps the invariant.**
* `file_readers_own_mappings` — **every mapping has one owner, and its messages come out once and
  in order, wherever it is moved.**
-/

namespace Liquibook

open Lib

/-- `std::system_error`, with the arguments of its constructor. -/
structure SystemError where
  code : ℕ
  whatArg : String
  deriving DecidableEq, Repr

/-! ### The system -/

/-- What a process holds of the system: the descriptors that are open, and the files that are
mapped, by their addresses. -/
structure Os where
  fds : List ℕ := []
  mappings : ℕ → Option (List Byte) := fun _ => none

/-- How the system answers the calls of the constructor: with an error number each, or with a
descriptor, the contents of the file and an address. -/
structure Answers where
  opened : Except ℕ ℕ
  stat : Except ℕ (List Byte)
  mapped : Except ℕ ℕ

namespace Os

/-- `open` has returned the descriptor. -/
def opens (os : Os) (fd : ℕ) : Os := { os with fds := fd :: os.fds }

/-- `close`; `none` for a descriptor that is not open. -/
def close (os : Os) (fd : ℕ) : Option Os :=
  if fd ∈ os.fds then some { os with fds := os.fds.erase fd } else none

/-- `mmap` has returned the address. -/
def maps (os : Os) (address : ℕ) (contents : List Byte) : Os :=
  { os with mappings := Function.update os.mappings address (some contents) }

/-- `munmap`; `none` when no file of that length is mapped there. -/
def munmap (os : Os) (address : ℕ) (length : UInt64) : Option Os :=
  match os.mappings address with
  | none => none
  | some contents =>
      if UInt64.ofNat contents.length = length then
        some { os with mappings := Function.update os.mappings address none }
      else none

/-- A descriptor that has just been opened can be closed. -/
theorem close_opens (os : Os) (fd : ℕ) : (os.opens fd).close fd = some os := by
  unfold close
  rw [if_pos (show fd ∈ (os.opens fd).fds from List.mem_cons_self)]
  simp [opens]

theorem maps_opens (os : Os) (fd address : ℕ) (contents : List Byte) :
    (os.opens fd).maps address contents = (os.maps address contents).opens fd := rfl

end Os

/-! ### The class -/

/-- `class ItchFileReader`, with the address of the mapping; `none` for the null pointer. -/
structure FileReader where
  data : Option ℕ := none
  size : UInt64 := 0
  offset : UInt64 := 0
  deriving DecidableEq, Repr

namespace FileReader

/-- The constructor. -/
def construct (os : Os) (path : String) (answers : Answers) :
    Option (Except SystemError FileReader × Os) :=
  match answers.opened with
  | .error errno => some (.error ⟨errno, "ItchFileReader: failed to open " ++ path⟩, os)
  | .ok fd =>
      let os := os.opens fd
      match answers.stat with
      | .error savedErrno => (os.close fd).map fun os =>
          (.error ⟨savedErrno, "ItchFileReader: fstat failed for " ++ path⟩, os)
      | .ok contents =>
          let size := UInt64.ofNat contents.length
          if size = 0 then (os.close fd).map fun os => (.ok {}, os)
          else
            match answers.mapped with
            | .error mmapErrno => (os.close fd).map fun os =>
                (.error ⟨mmapErrno, "ItchFileReader: mmap failed for " ++ path⟩, os)
            | .ok address => ((os.maps address contents).close fd).map fun os =>
                (.ok { data := some address, size := size }, os)

/-- `reset` -/
def reset (os : Os) (r : FileReader) : Option Os :=
  match r.data with
  | none => some os
  | some address => os.munmap address r.size

/-- The reader with the file that its pointer leads to. -/
def view (os : Os) (r : FileReader) : ItchFileReader where
  data := r.data.bind os.mappings
  size := r.size
  offset := r.offset

/-- `next_raw_message` -/
def nextRawMessage (os : Os) (r : FileReader) : Option (List Byte) × FileReader :=
  ((r.view os).nextRawMessage.1.map fun f => f.bytes ((r.view os).data.getD []),
    { r with offset := (r.view os).nextRawMessage.2.offset })

/-- **The constructor leaves no descriptor open**, whatever fails. -/
theorem construct_cases (os : Os) (path : String) (answers : Answers) :
    (∃ e, construct os path answers = some (.error e, os)) ∨
    construct os path answers = some (.ok {}, os) ∨
    ∃ address contents, answers.stat = .ok contents ∧ answers.mapped = .ok address ∧
      UInt64.ofNat contents.length ≠ 0 ∧
      construct os path answers =
        some (.ok { data := some address, size := UInt64.ofNat contents.length },
          os.maps address contents) := by
  unfold construct
  cases answers.opened with
  | error errno => exact Or.inl ⟨_, rfl⟩
  | ok fd =>
    cases hstat : answers.stat with
    | error savedErrno =>
      left
      simp only [Os.close_opens, Option.map_some]
      exact ⟨_, rfl⟩
    | ok contents =>
      by_cases hsize : UInt64.ofNat contents.length = 0
      · right; left
        simp only [if_pos hsize, Os.close_opens, Option.map_some]
      · cases hmapped : answers.mapped with
        | error mmapErrno =>
          left
          simp only [if_neg hsize, Os.close_opens, Option.map_some]
          exact ⟨_, rfl⟩
        | ok address =>
          right; right
          refine ⟨address, contents, rfl, rfl, hsize, ?_⟩
          simp only [if_neg hsize, Os.maps_opens, Os.close_opens, Option.map_some]

/-- **A call returns the next frame** of what is left behind the offset. -/
theorem nextRawMessage_cases {os : Os} {r : FileReader} {address : ℕ} {raw : List Byte}
    (hdata : r.data = some address) (hmapped : os.mappings address = some raw)
    (hraw : Walkable raw) (hsize : r.size = UInt64.ofNat raw.length)
    (hoff : r.offset.toNat ≤ raw.length) :
    (r.nextRawMessage os = (none, r) ∧ frames (raw.drop r.offset.toNat) = []) ∨
      ∃ frame o', r.nextRawMessage os = (some frame, { r with offset := o' }) ∧
        o'.toNat ≤ raw.length ∧
        frames (raw.drop r.offset.toNat) = frame :: frames (raw.drop o'.toNat) := by
  have hview : (r.view os).data = some raw := by
    rw [view, hdata]
    exact hmapped
  obtain ⟨hnone, hsome⟩ := nextRawMessage_eq hraw hoff hview hsize rfl
  unfold nextRawMessage
  rw [hview]
  obtain ⟨hp, hn⟩ | ⟨f, o', hp, -, hoff', -, hn⟩ := producerFrame_cases hraw hoff
  · left
    rw [hnone hp]
    exact ⟨rfl, frames_of_none hn⟩
  · right
    rw [hsome f o' hp]
    exact ⟨_, o', rfl, hoff', frames_of_some hn⟩

end FileReader

/-! ### A process -/

/-- A process that uses file readers, and what has been returned from each mapping so far. -/
structure Process where
  os : Os
  objects : ℕ → Option FileReader := fun _ => none
  returned : ℕ → List (List Byte) := fun _ => []

/-- What a process does with file readers. -/
inductive ReaderOp where
  | construct (name : ℕ) (path : String) (answers : Answers)
  | moveConstruct (name other : ℕ)
  | moveAssign (name other : ℕ)
  | next (name : ℕ)
  | destroy (name : ℕ)

namespace Process

/-- The process has no object yet. -/
def new (fds : List ℕ) : Process where
  os := { fds := fds }

/-- The object has been moved, and what is left of it is like a reader of an empty file. -/
def move (p : Process) (name other : ℕ) (r : FileReader) : Process :=
  { p with
    objects := Function.update (Function.update p.objects other (some {})) name (some r) }

/-- One step; `none` when there is no such object, or on an error that the system reports. -/
def step (p : Process) : ReaderOp → Option Process
  | .construct name path answers =>
      (FileReader.construct p.os path answers).map fun result =>
        match result with
        | (.error _, os) => { p with os := os }
        | (.ok r, os) =>
            { os := os
              objects := Function.update p.objects name (some r)
              returned :=
                match r.data with
                | none => p.returned
                | some address => Function.update p.returned address [] }
  | .moveConstruct name other => (p.objects other).map fun r => p.move name other r
  | .moveAssign name other =>
      if name = other then some p
      else
        (p.objects name).bind fun this => (p.objects other).bind fun r =>
          (this.reset p.os).map fun os => { p with os := os }.move name other r
  | .next name => (p.objects name).map fun r =>
      { p with
        objects := Function.update p.objects name (some (r.nextRawMessage p.os).2)
        returned :=
          match r.data with
          | none => p.returned
          | some address => Function.update p.returned address
              (p.returned address ++ (r.nextRawMessage p.os).1.toList) }
  | .destroy name => (p.objects name).bind fun this =>
      (this.reset p.os).map fun os =>
        { p with os := os, objects := Function.update p.objects name none }

def run (p : Process) (ops : List ReaderOp) : Option Process := ops.foldlM step p

/-- What the language and the system promise: names are those of objects that exist, or do not
exist yet; an address that `mmap` returns is not in use; and no file comes so close to
the size of the address space that an offset would wrap. -/
def Allowed (p : Process) : ReaderOp → Prop
  | .construct name _ answers => p.objects name = none ∧
      (∀ contents, answers.stat = .ok contents → Walkable contents) ∧
      ∀ address, answers.mapped = .ok address → p.os.mappings address = none
  | .moveConstruct name other => p.objects name = none ∧ (p.objects other).isSome = true
  | .moveAssign name other => (p.objects name).isSome = true ∧ (p.objects other).isSome = true
  | .next name => (p.objects name).isSome = true
  | .destroy name => (p.objects name).isSome = true

/-- Every step is allowed where it is made. -/
def Lawful (p : Process) : List ReaderOp → Prop
  | [] => True
  | op :: ops => p.Allowed op ∧ ∀ p', p.step op = some p' → Lawful p' ops

/-- One more step in front. -/
theorem Lawful.cons {p p' : Process} {op : ReaderOp} {ops : List ReaderOp} (hop : p.Allowed op)
    (hstep : p.step op = some p') (h : p'.Lawful ops) : p.Lawful (op :: ops) := by
  refine ⟨hop, fun p'' hp'' => ?_⟩
  rw [hstep] at hp''
  cases hp''
  exact h

/-- The object holds the mapping. -/
def Owns (p : Process) (name address : ℕ) : Prop :=
  ∃ r, p.objects name = some r ∧ r.data = some address

/-! ### The invariant -/

/-- What is true of an object that holds a mapping. -/
structure Holding (p : Process) (r : FileReader) (address : ℕ) (contents : List Byte) : Prop where
  mapped : p.os.mappings address = some contents
  walkable : Walkable contents
  size_eq : r.size = UInt64.ofNat contents.length
  offset_le : r.offset.toNat ≤ contents.length
  returned : p.returned address ++ frames (contents.drop r.offset.toNat) = frames contents

/-- **The invariant**, for a process that began with these descriptors.  Every mapping has one
owner, and every owner stands behind what has been returned from its mapping. -/
structure Inv (fds : List ℕ) (p : Process) : Prop where
  fds_eq : p.os.fds = fds
  owned : ∀ address contents, p.os.mappings address = some contents → ∃ name, p.Owns name address
  unique : ∀ name name' address, p.Owns name address → p.Owns name' address → name = name'
  holding : ∀ name r address, p.objects name = some r → r.data = some address →
    ∃ contents, p.Holding r address contents

theorem inv_new (fds : List ℕ) : (new fds).Inv fds where
  fds_eq := rfl
  owned address contents h := by cases h
  unique name name' address h := by
    obtain ⟨r, hr, -⟩ := h
    cases hr
  holding name r address h := by cases h

/-! ### The steps -/

variable {fds : List ℕ} {p p' : Process} {name other address : ℕ} {r : FileReader}
  {contents : List Byte}

theorem owns_update {o : Option FileReader} {n : ℕ} :
    { p with objects := Function.update p.objects name o }.Owns n address ↔
      (n = name ∧ ∃ r, o = some r ∧ r.data = some address) ∨ n ≠ name ∧ p.Owns n address := by
  unfold Owns
  dsimp only
  by_cases hn : n = name
  · subst hn
    simp
  · rw [Function.update_of_ne hn]
    simp [hn]

theorem not_owns_update {o : Option FileReader} (ho : ∀ r, o = some r → r.data = none)
    (address : ℕ) :
    ¬ { p with objects := Function.update p.objects name o }.Owns name address := by
  rw [owns_update]
  rintro (⟨-, r, hr, hdata⟩ | ⟨hn, -⟩)
  · rw [ho r hr] at hdata
    cases hdata
  · exact hn rfl

/-- An object that holds nothing does not own anything. -/
theorem not_owns (hr : ∀ r, p.objects name = some r → r.data = none) (address : ℕ) :
    ¬ p.Owns name address := by
  rintro ⟨r, hname, hdata⟩
  rw [hr r hname] at hdata
  cases hdata

namespace Inv

/-- An object that holds nothing may come and go. -/
theorem update_empty (h : p.Inv fds) (hname : ∀ address, ¬ p.Owns name address)
    {o : Option FileReader} (ho : ∀ r, o = some r → r.data = none) :
    { p with objects := Function.update p.objects name o }.Inv fds := by
  have howns : ∀ n a, { p with objects := Function.update p.objects name o }.Owns n a ↔
      p.Owns n a := by
    intro n a
    rw [owns_update]
    constructor
    · rintro (⟨-, r, hr, hdata⟩ | ⟨-, hown⟩)
      · rw [ho r hr] at hdata
        cases hdata
      · exact hown
    · intro hown
      refine Or.inr ⟨?_, hown⟩
      rintro rfl
      exact hname a hown
  refine ⟨h.fds_eq, fun a c hc => ?_, fun n n' a hn hn' => ?_, fun n r a hr hdata => ?_⟩
  · obtain ⟨n, hn⟩ := h.owned a c hc
    exact ⟨n, (howns n a).mpr hn⟩
  · exact h.unique n n' a ((howns n a).mp hn) ((howns n' a).mp hn')
  · obtain ⟨r', hr', hdata'⟩ := (howns n a).mp ⟨r, hr, hdata⟩
    have hne : n ≠ name := by
      rintro rfl
      exact hname a ⟨r', hr', hdata'⟩
    dsimp only at hr
    rw [Function.update_of_ne hne] at hr
    obtain ⟨c, hc⟩ := h.holding n r a hr hdata
    exact ⟨c, hc.mapped, hc.walkable, hc.size_eq, hc.offset_le, hc.returned⟩

/-- **A move hands the mapping over.** -/
theorem move (h : p.Inv fds) (hname : ∀ address, ¬ p.Owns name address)
    (hother : p.objects other = some r) (hne : name ≠ other) : (p.move name other r).Inv fds := by
  have hget : ∀ n r', (p.move name other r).objects n = some r' →
      n = name ∧ r' = r ∨ n = other ∧ r' = {} ∨ n ≠ name ∧ n ≠ other ∧ p.objects n = some r' := by
    intro n r' hr'
    unfold Process.move at hr'
    dsimp only at hr'
    by_cases hn : n = name
    · subst hn
      rw [Function.update_self] at hr'
      exact Or.inl ⟨rfl, (Option.some.inj hr').symm⟩
    · rw [Function.update_of_ne hn] at hr'
      by_cases ho : n = other
      · subst ho
        rw [Function.update_self] at hr'
        exact Or.inr (Or.inl ⟨rfl, (Option.some.inj hr').symm⟩)
      · rw [Function.update_of_ne ho] at hr'
        exact Or.inr (Or.inr ⟨hn, ho, hr'⟩)
  -- who holds a mapping now held it before, or the object that has been moved did
  have hback : ∀ n a, (p.move name other r).Owns n a →
      p.Owns (if n = name then other else n) a ∧ n ≠ other := by
    rintro n a ⟨r', hr', hdata⟩
    rcases hget n r' hr' with ⟨rfl, rfl⟩ | ⟨-, rfl⟩ | ⟨hn, ho, hr'⟩
    · rw [if_pos rfl]
      exact ⟨⟨r', hother, hdata⟩, hne⟩
    · cases hdata
    · rw [if_neg hn]
      exact ⟨⟨r', hr', hdata⟩, ho⟩
  refine ⟨h.fds_eq, fun a c hc => ?_, fun n n' a hn hn' => ?_, fun n r' a hr' hdata => ?_⟩
  · obtain ⟨n, r', hr', hdata⟩ := h.owned a c hc
    have hn : n ≠ name := by
      rintro rfl
      exact hname a ⟨r', hr', hdata⟩
    by_cases ho : n = other
    · subst ho
      rw [hother] at hr'
      cases hr'
      exact ⟨name, r, Function.update_self .., hdata⟩
    · refine ⟨n, r', ?_, hdata⟩
      unfold Process.move
      dsimp only
      rw [Function.update_of_ne hn, Function.update_of_ne ho]
      exact hr'
  · obtain ⟨hn, ho⟩ := hback n a hn
    obtain ⟨hn', ho'⟩ := hback n' a hn'
    have heq := h.unique _ _ a hn hn'
    split at heq
    next e =>
      split at heq
      next e' => exact e.trans e'.symm
      next => exact absurd heq.symm ho'
    next =>
      split at heq
      next => exact absurd heq ho
      next => exact heq
  · have hold : ∃ n, p.objects n = some r' := by
      rcases hget n r' hr' with ⟨-, rfl⟩ | ⟨-, rfl⟩ | ⟨-, -, hr'⟩
      · exact ⟨other, hother⟩
      · cases hdata
      · exact ⟨n, hr'⟩
    obtain ⟨m, hm⟩ := hold
    obtain ⟨c, hc⟩ := h.holding m r' a hm hdata
    exact ⟨c, hc.mapped, hc.walkable, hc.size_eq, hc.offset_le, hc.returned⟩

/-- **An object that gives up its mapping unmaps it**, with its own length. -/
theorem reset (h : p.Inv fds) (hr : p.objects name = some r) :
    ∃ os, r.reset p.os = some os ∧
      { p with os := os, objects := Function.update p.objects name (some {}) }.Inv fds := by
  cases hdata : r.data with
  | none =>
    refine ⟨p.os, ?_, h.update_empty (not_owns fun r' hr' => ?_) fun r hr => ?_⟩
    · unfold FileReader.reset
      rw [hdata]
    · rw [hr] at hr'
      cases hr'
      exact hdata
    · cases hr
      rfl
  | some address =>
    obtain ⟨contents, hc⟩ := h.holding name r address hr hdata
    refine ⟨{ p.os with mappings := Function.update p.os.mappings address none }, ?_, ?_⟩
    · unfold FileReader.reset
      rw [hdata]
      unfold Os.munmap
      simp only [hc.mapped, if_pos hc.size_eq.symm]
    · have hother : ∀ n r' a, n ≠ name → p.objects n = some r' → r'.data = some a →
          a ≠ address := by
        rintro n r' a hn hr' hdata' rfl
        exact hn (h.unique n name a ⟨r', hr', hdata'⟩ ⟨r, hr, hdata⟩)
      have hget : ∀ n r' a, Function.update p.objects name (some {}) n = some r' →
          r'.data = some a → n ≠ name ∧ p.objects n = some r' := by
        intro n r' a hr' hdata'
        by_cases hn : n = name
        · subst hn
          rw [Function.update_self] at hr'
          cases hr'
          cases hdata'
        · rw [Function.update_of_ne hn] at hr'
          exact ⟨hn, hr'⟩
      refine ⟨h.fds_eq, fun a c hmap => ?_, fun n n' a hn hn' => ?_, fun n r' a hr' hdata' => ?_⟩
      · have ha : a ≠ address := by
          rintro rfl
          dsimp only at hmap
          rw [Function.update_self] at hmap
          cases hmap
        dsimp only at hmap
        rw [Function.update_of_ne ha] at hmap
        obtain ⟨n, r', hr', hdata'⟩ := h.owned a c hmap
        have hn : n ≠ name := by
          rintro rfl
          rw [hr] at hr'
          cases hr'
          rw [hdata] at hdata'
          exact ha (Option.some.inj hdata').symm
        exact ⟨n, r', (Function.update_of_ne hn ..).trans hr', hdata'⟩
      · obtain ⟨r₁, hr₁, hdata₁⟩ := hn
        obtain ⟨r₂, hr₂, hdata₂⟩ := hn'
        exact h.unique n n' a ⟨r₁, (hget n r₁ a hr₁ hdata₁).2, hdata₁⟩
          ⟨r₂, (hget n' r₂ a hr₂ hdata₂).2, hdata₂⟩
      · obtain ⟨hn, hr'⟩ := hget n r' a hr' hdata'
        obtain ⟨c, hc'⟩ := h.holding n r' a hr' hdata'
        refine ⟨c, ?_, hc'.walkable, hc'.size_eq, hc'.offset_le, hc'.returned⟩
        exact (Function.update_of_ne (hother n r' a hn hr' hdata') ..).trans hc'.mapped

/-- A new object holds the mapping that its constructor has made. -/
theorem construct (h : p.Inv fds) (hname : p.objects name = none)
    (hfree : p.os.mappings address = none) (hwalk : Walkable contents) :
    Inv fds
      { os := p.os.maps address contents
        objects := Function.update p.objects name
          (some { data := some address, size := UInt64.ofNat contents.length })
        returned := Function.update p.returned address [] } := by
  -- nobody has held what was not mapped
  have hother : ∀ n r' a, p.objects n = some r' → r'.data = some a → a ≠ address := by
    rintro n r' a hr' hdata rfl
    obtain ⟨c, hc⟩ := h.holding n r' a hr' hdata
    rw [hc.mapped] at hfree
    cases hfree
  have hget : ∀ n r' a, Function.update p.objects name
        (some { data := some address, size := UInt64.ofNat contents.length }) n = some r' →
      r'.data = some a →
      n = name ∧ a = address ∧ r' = { data := some address, size := UInt64.ofNat contents.length } ∨
        n ≠ name ∧ a ≠ address ∧ p.objects n = some r' := by
    intro n r' a hr' hdata
    by_cases hn : n = name
    · subst hn
      rw [Function.update_self] at hr'
      cases hr'
      exact Or.inl ⟨rfl, (Option.some.inj hdata).symm, rfl⟩
    · rw [Function.update_of_ne hn] at hr'
      exact Or.inr ⟨hn, hother n r' a hr' hdata, hr'⟩
  refine ⟨h.fds_eq, fun a c hmap => ?_, fun n n' a hn hn' => ?_, fun n r' a hr' hdata => ?_⟩
  · by_cases ha : a = address
    · subst ha
      exact ⟨name, _, Function.update_self .., rfl⟩
    · have hmap' : p.os.mappings a = some c := by
        rw [← hmap]
        exact (Function.update_of_ne ha ..).symm
      obtain ⟨n, r', hr', hdata⟩ := h.owned a c hmap'
      have hn : n ≠ name := by
        rintro rfl
        rw [hname] at hr'
        cases hr'
      exact ⟨n, r', (Function.update_of_ne hn ..).trans hr', hdata⟩
  · obtain ⟨r₁, hr₁, hdata₁⟩ := hn
    obtain ⟨r₂, hr₂, hdata₂⟩ := hn'
    rcases hget n r₁ a hr₁ hdata₁ with ⟨rfl, rfl, -⟩ | ⟨-, ha, hr₁⟩
    · rcases hget n' r₂ _ hr₂ hdata₂ with ⟨rfl, -, -⟩ | ⟨-, ha, -⟩
      · rfl
      · exact absurd rfl ha
    · rcases hget n' r₂ a hr₂ hdata₂ with ⟨-, rfl, -⟩ | ⟨-, -, hr₂⟩
      · exact absurd rfl ha
      · exact h.unique n n' a ⟨r₁, hr₁, hdata₁⟩ ⟨r₂, hr₂, hdata₂⟩
  · rcases hget n r' a hr' hdata with ⟨-, rfl, rfl⟩ | ⟨-, ha, hr'⟩
    · refine ⟨contents, Function.update_self .., hwalk, rfl, Nat.zero_le _, ?_⟩
      dsimp only
      rw [Function.update_self, UInt64.toNat_zero, List.drop_zero, List.nil_append]
    · obtain ⟨c, hc⟩ := h.holding n r' a hr' hdata
      refine ⟨c, (Function.update_of_ne ha ..).trans hc.mapped, hc.walkable, hc.size_eq,
        hc.offset_le, ?_⟩
      dsimp only
      rw [Function.update_of_ne ha]
      exact hc.returned

/-- A call of `next_raw_message` on an object that holds nothing. -/
theorem nextRawMessage_of_none (os : Os) (hdata : r.data = none) :
    r.nextRawMessage os = (none, r) := by
  obtain ⟨data, size, offset⟩ := r
  cases hdata
  rfl

/-- **A call returns what comes next in its mapping.** -/
theorem next (h : p.Inv fds) (hr : p.objects name = some r) (hdata : r.data = some address) :
    Inv fds
      { p with
        objects := Function.update p.objects name (some (r.nextRawMessage p.os).2)
        returned := Function.update p.returned address
          (p.returned address ++ (r.nextRawMessage p.os).1.toList) } := by
  obtain ⟨contents, hc⟩ := h.holding name r address hr hdata
  -- the object stays where it is, with another offset
  have hsame : (r.nextRawMessage p.os).2.data = some address := hdata
  have hget : ∀ n r' a, Function.update p.objects name (some (r.nextRawMessage p.os).2) n =
        some r' → r'.data = some a →
      n = name ∧ a = address ∧ r' = (r.nextRawMessage p.os).2 ∨
        n ≠ name ∧ a ≠ address ∧ p.objects n = some r' := by
    intro n r' a hr' hdata'
    by_cases hn : n = name
    · subst hn
      rw [Function.update_self] at hr'
      cases hr'
      rw [hsame] at hdata'
      exact Or.inl ⟨rfl, (Option.some.inj hdata').symm, rfl⟩
    · rw [Function.update_of_ne hn] at hr'
      refine Or.inr ⟨hn, ?_, hr'⟩
      rintro rfl
      exact hn (h.unique n name a ⟨r', hr', hdata'⟩ ⟨r, hr, hdata⟩)
  have hown : ∀ n r' a, Function.update p.objects name (some (r.nextRawMessage p.os).2) n =
      some r' → r'.data = some a → p.Owns n a := by
    intro n r' a hr' hdata'
    rcases hget n r' a hr' hdata' with ⟨rfl, rfl, -⟩ | ⟨-, -, hr'⟩
    · exact ⟨r, hr, hdata⟩
    · exact ⟨r', hr', hdata'⟩
  refine ⟨h.fds_eq, fun a c hmap => ?_, fun n n' a hn hn' => ?_, fun n r' a hr' hdata' => ?_⟩
  · obtain ⟨n, r', hr', hdata'⟩ := h.owned a c hmap
    by_cases hn : n = name
    · subst hn
      rw [hr] at hr'
      cases hr'
      exact ⟨n, _, Function.update_self .., hdata'⟩
    · exact ⟨n, r', (Function.update_of_ne hn ..).trans hr', hdata'⟩
  · obtain ⟨r₁, hr₁, hdata₁⟩ := hn
    obtain ⟨r₂, hr₂, hdata₂⟩ := hn'
    exact h.unique n n' a (hown n r₁ a hr₁ hdata₁) (hown n' r₂ a hr₂ hdata₂)
  · rcases hget n r' a hr' hdata' with ⟨-, rfl, rfl⟩ | ⟨-, ha, hr'⟩
    · have hreturned := hc.returned
      refine ⟨contents, hc.mapped, hc.walkable, hc.size_eq, ?_, ?_⟩
      · rcases FileReader.nextRawMessage_cases hdata hc.mapped hc.walkable hc.size_eq
          hc.offset_le with ⟨hnext, -⟩ | ⟨frame, o', hnext, ho', -⟩
        · rw [hnext]
          exact hc.offset_le
        · rw [hnext]
          exact ho'
      · dsimp only
        rw [Function.update_self]
        rcases FileReader.nextRawMessage_cases hdata hc.mapped hc.walkable hc.size_eq
          hc.offset_le with ⟨hnext, -⟩ | ⟨frame, o', hnext, -, hframes⟩
        · rw [hnext, Option.toList_none, List.append_nil]
          exact hreturned
        · rw [hnext, Option.toList_some, List.append_assoc, List.singleton_append, ← hframes]
          exact hreturned
    · obtain ⟨c, hc'⟩ := h.holding n r' a hr' hdata'
      refine ⟨c, hc'.mapped, hc'.walkable, hc'.size_eq, hc'.offset_le, ?_⟩
      dsimp only
      rw [Function.update_of_ne ha]
      exact hc'.returned

/-- **Every step keeps the invariant**, and none of them closes or unmaps what is not there. -/
theorem step (h : p.Inv fds) {op : ReaderOp} (hop : p.Allowed op) :
    ∃ p', p.step op = some p' ∧ p'.Inv fds := by
  cases op with
  | construct name path answers =>
    obtain ⟨hname, hwalk, hfree⟩ := hop
    have hnone : ∀ a, ¬ p.Owns name a := not_owns fun r hr => by
      rw [hname] at hr
      cases hr
    unfold Process.step
    dsimp only
    rcases FileReader.construct_cases p.os path answers with ⟨e, hc⟩ | hc |
      ⟨address, contents, hstat, hmapped, -, hc⟩
    · rw [hc]
      exact ⟨_, rfl, h⟩
    · rw [hc]
      refine ⟨_, rfl, h.update_empty hnone fun r hr => ?_⟩
      cases hr
      rfl
    · rw [hc]
      exact ⟨_, rfl, h.construct hname (hfree address hmapped) (hwalk contents hstat)⟩
  | moveConstruct name other =>
    obtain ⟨hname, hother⟩ := hop
    obtain ⟨r, hr⟩ := Option.isSome_iff_exists.mp hother
    refine ⟨p.move name other r, ?_, h.move (not_owns fun r' hr' => ?_) hr ?_⟩
    · unfold Process.step
      dsimp only
      rw [hr]
      rfl
    · rw [hname] at hr'
      cases hr'
    · rintro rfl
      rw [hname] at hr
      cases hr
  | moveAssign name other =>
    obtain ⟨hname, hother⟩ := hop
    obtain ⟨this, hthis⟩ := Option.isSome_iff_exists.mp hname
    obtain ⟨r, hr⟩ := Option.isSome_iff_exists.mp hother
    unfold Process.step
    dsimp only
    by_cases hne : name = other
    · rw [if_pos hne]
      exact ⟨p, rfl, h⟩
    · obtain ⟨os, hos, hreset⟩ := h.reset hthis
      rw [if_neg hne, hthis, hr, Option.bind_some, Option.bind_some, hos]
      refine ⟨_, rfl, ?_⟩
      -- the object holds nothing when the mapping is moved to it
      have hmove := hreset.move (not_owns_update fun _ h => by cases h; rfl)
        ((Function.update_of_ne (Ne.symm hne) ..).trans hr) hne
      unfold Process.move at hmove ⊢
      dsimp only at hmove ⊢
      rwa [Function.update_comm hne, Function.update_idem] at hmove
  | next name =>
    obtain ⟨r, hr⟩ := Option.isSome_iff_exists.mp hop
    unfold Process.step
    dsimp only
    rw [hr]
    refine ⟨_, rfl, ?_⟩
    dsimp only
    cases hdata : r.data with
    | none =>
      rw [nextRawMessage_of_none _ hdata]
      refine h.update_empty (not_owns fun r' hr' => ?_) fun r' hr' => ?_
      · rw [hr] at hr'
        cases hr'
        exact hdata
      · cases hr'
        exact hdata
    | some address => exact h.next hr hdata
  | destroy name =>
    obtain ⟨this, hthis⟩ := Option.isSome_iff_exists.mp hop
    obtain ⟨os, hos, hreset⟩ := h.reset hthis
    unfold Process.step
    dsimp only
    rw [hthis, Option.bind_some, hos]
    refine ⟨_, rfl, ?_⟩
    have hempty : Inv fds { os := os, objects := _, returned := p.returned } :=
      hreset.update_empty (not_owns_update fun _ h => by cases h; rfl) fun r hr =>
        absurd hr (Option.some_ne_none r).symm
    rwa [Function.update_idem] at hempty

end Inv

/-- **The invariant holds along every lawful run.** -/
theorem Inv.run (h : p.Inv fds) {ops : List ReaderOp} (hops : p.Lawful ops) :
    ∃ p', p.run ops = some p' ∧ p'.Inv fds := by
  induction ops generalizing p with
  | nil => exact ⟨p, rfl, h⟩
  | cons op ops ih =>
    obtain ⟨hop, hrest⟩ := hops
    obtain ⟨p', hp', hinv⟩ := h.step hop
    rw [Process.run, List.foldlM_cons, hp']
    exact ih hinv (hrest p' hp')

end Process

open Process in
/-- **Every mapping has one owner, and its messages come out once and in order.**  Along every
lawful run, whatever the system answers: no descriptor is closed and no mapping unmapped that
is not there; the descriptors that are open are those that were open at the start; every
mapping is held by one object, and every pointer leads to a mapping; what has been returned
from a mapping, by whichever objects have held it, are its first frames; and its owner
returns nothing exactly when these are all of them. -/
theorem file_readers_own_mappings (fds : List ℕ) {ops : List ReaderOp}
    (hops : (Process.new fds).Lawful ops) :
    ∃ p, (Process.new fds).run ops = some p ∧ p.os.fds = fds ∧
      (∀ address contents, p.os.mappings address = some contents →
        (∃! name, p.Owns name address) ∧ p.returned address <+: frames contents) ∧
      ∀ name r address, p.objects name = some r → r.data = some address →
        ∃ contents, p.os.mappings address = some contents ∧
          ((r.nextRawMessage p.os).1 = none ↔ p.returned address = frames contents) := by
  obtain ⟨p, hrun, h⟩ := (inv_new fds).run hops
  refine ⟨p, hrun, h.fds_eq, fun address contents hmap => ?_, fun name r address hr hdata => ?_⟩
  · obtain ⟨name, hname⟩ := h.owned address contents hmap
    refine ⟨⟨name, hname, fun name' hname' => h.unique name' name address hname' hname⟩, ?_⟩
    obtain ⟨r, hr, hdata⟩ := hname
    obtain ⟨c, hc⟩ := h.holding name r address hr hdata
    obtain rfl : contents = c := Option.some.inj (hmap.symm.trans hc.mapped)
    exact ⟨_, hc.returned⟩
  · obtain ⟨contents, hc⟩ := h.holding name r address hr hdata
    refine ⟨contents, hc.mapped, ?_⟩
    have hreturned := hc.returned
    rcases FileReader.nextRawMessage_cases hdata hc.mapped hc.walkable hc.size_eq hc.offset_le with
      ⟨hnext, hframes⟩ | ⟨frame, o', hnext, -, hframes⟩
    · rw [hframes, List.append_nil] at hreturned
      rw [hnext]
      exact ⟨fun _ => hreturned, fun _ => rfl⟩
    · rw [hframes] at hreturned
      rw [hnext]
      refine ⟨fun e => (by cases e), fun e => ?_⟩
      rw [e] at hreturned
      exact absurd (List.append_right_eq_self.mp hreturned) (List.cons_ne_nil _ _)

/-- One file that cannot be opened and one that can, read through two objects. -/
def movedReader : List ReaderOp :=
  [.construct 0 "missing" ⟨.error 2, .error 9, .error 9⟩,
    .construct 0 "present" ⟨.ok 3, .ok [0, 1, 65, 0, 1, 66], .ok 4096⟩,
    .next 0, .moveConstruct 1 0, .next 1, .next 0, .destroy 0]

open Process in
/-- Both messages have come out, and the mapping is still held. -/
theorem file_readers_own_mappings_moved :
    ∃ p, (Process.new [0, 1, 2]).run movedReader = some p ∧ p.os.fds = [0, 1, 2] ∧
      p.returned 4096 = [[65], [66]] ∧ (∃! name, p.Owns name 4096) := by
  have hwalk : Walkable [0, 1, 65, 0, 1, 66] := by
    unfold Walkable
    decide
  have hlawful : (Process.new [0, 1, 2]).Lawful movedReader := by
    refine Lawful.cons ⟨rfl, fun _ h => (by cases h), fun _ h => (by cases h)⟩ rfl ?_
    refine Lawful.cons ⟨rfl, fun _ h => ?_, fun _ h => ?_⟩ rfl ?_
    · cases h
      exact hwalk
    · cases h
      rfl
    refine Lawful.cons rfl rfl (Lawful.cons ⟨rfl, rfl⟩ rfl (Lawful.cons rfl rfl ?_))
    exact Lawful.cons rfl rfl (Lawful.cons rfl rfl trivial)
  obtain ⟨p, hrun, hfds, hmappings, -⟩ := file_readers_own_mappings [0, 1, 2] hlawful
  obtain ⟨p', hrun', hmap, hreturned⟩ : ∃ p', (Process.new [0, 1, 2]).run movedReader = some p' ∧
      p'.os.mappings 4096 = some [0, 1, 65, 0, 1, 66] ∧ p'.returned 4096 = [[65], [66]] :=
    ⟨_, rfl, rfl, rfl⟩
  obtain rfl : p = p' := Option.some.inj (hrun.symm.trans hrun')
  exact ⟨p, hrun, hfds, hreturned, (hmappings 4096 _ hmap).1⟩

end Liquibook
