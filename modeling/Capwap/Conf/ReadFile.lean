/-
# The two builds of `cw_read_file`

Without `pread` the function seeks and reads, and keeps in `file->sys_offset` where it takes the
kernel's position to be, so as not to seek when it is there already.  `readFileSeek` is that build.

A `Device` is a file's content, and how each call turns out: it fails, at the seek if there is one,
or it reads so many bytes at most.  On every device, for every sequence of calls, the two builds
return the same once `sys_offset` is the kernel's position (`readAll_agree`): one call keeps it so
(`readFileSeek_agrees`).

`cw_conf_parse` leaves `sys_offset` uninitialised.  Its calls are at the file's own offset, and a
file that was just opened has position 0, so a first call is right either way: it seeks to 0, or it
is there.  `Sys.seeking` is the system for a parser with the second build, with any initial
`sys_offset`, and its parses are those of the first (`readFile_builds_agree`).
-/
import Mathlib.Data.List.Forall2
import Capwap.Conf.Trace

namespace Capwap

/-! ## 1. Devices and the builds

`auto/unix` tests for `pread`, and `cw_read_file` has a body for either outcome.  Both are given
here on the same device, so that they can be compared.  The device decides how each call of
`cw_read_file` turns out; what it may not do is return bytes that the file does not have. -/

/-- How a call of `cw_read_file` turns out: the seek fails, if there is one, and the read if there
is none; the read fails; or up to so many bytes are read. -/
inductive Outcome
  | seekFails
  | readFails
  | reads (n : Nat)
deriving DecidableEq, Repr

/-- A file system as far as reads go.  The world decides how the next call turns out, and `tick` is
the world after it.  Outcomes may depend on the descriptor, and on all that went before. -/
structure Device (ρ : Type) where
  content : Int → ρ → List UInt8
  outcome : Int → ρ → Outcome
  tick : ρ → ρ

/-- The kernel's side of one descriptor: the world, and the position. -/
structure Descriptor (ρ : Type) where
  world : ρ
  pos : Nat

/-- `cw_file_t` in the build that has `sys_offset`. -/
structure SeekFile extends CwFile where
  sysOffset : Int
deriving DecidableEq, Repr

/-- Up to `n` bytes of a content, from `off` on. -/
def bytesAt (content : List UInt8) (off n : Nat) : List UInt8 := (content.drop off).take n

section
variable {ρ : Type}

namespace Device

/-- How a call at an offset turns out.  There is nothing before the start of a file. -/
def outcomeAt (D : Device ρ) (fd : Int) (off : Int) (w : ρ) : Outcome :=
  if off < 0 then .seekFails else D.outcome fd w

def pread (D : Device ρ) (fd : Int) (size : Nat) (off : Int) (w : ρ) : Option (List UInt8) × ρ :=
  match D.outcomeAt fd off w with
  | .reads n => (some (bytesAt (D.content fd w) off.toNat (min size n)), D.tick w)
  | _ => (none, D.tick w)

/-- `lseek(fd, off, SEEK_SET)`.  Where it fails the call of `cw_read_file` is over. -/
def lseek (D : Device ρ) (fd : Int) (off : Int) (k : Descriptor ρ) : Bool × Descriptor ρ :=
  match D.outcomeAt fd off k.world with
  | .seekFails => (false, { k with world := D.tick k.world })
  | _ => (true, { k with pos := off.toNat })

def read (D : Device ρ) (fd : Int) (size : Nat) (k : Descriptor ρ) :
    Option (List UInt8) × Descriptor ρ :=
  match D.outcome fd k.world with
  | .reads n =>
    let bs := bytesAt (D.content fd k.world) k.pos (min size n)
    (some bs, { world := D.tick k.world, pos := k.pos + bs.length })
  | _ => (none, { k with world := D.tick k.world })

end Device

/-- `cw_read_file` on a device, the build with `pread`. -/
def readFileAt (D : Device ρ) (file : CwFile) (size : Nat) (offset : Int) (w : ρ) :
    Option (List UInt8) × CwFile × ρ :=
  match D.pread file.fd size offset w with
  | (none, w) => (none, file, w)
  | (some bs, w) => (some bs, { file with offset := file.offset + bs.length }, w)

/-- The part of `cw_read_file` after the seek. -/
def readSeeked (D : Device ρ) (file : SeekFile) (size : Nat) (k : Descriptor ρ) :
    Option (List UInt8) × SeekFile × Descriptor ρ :=
  match D.read file.fd size k with
  | (none, k) => (none, file, k)
  | (some bs, k) =>
    (some bs, { file with offset := file.offset + bs.length,
                          sysOffset := file.sysOffset + bs.length }, k)

/-- `cw_read_file`, the build without `pread`: it seeks unless `file->sys_offset` is the offset
that is asked for, and then reads from where the kernel stands. -/
def readFileSeek (D : Device ρ) (file : SeekFile) (size : Nat) (offset : Int) (k : Descriptor ρ) :
    Option (List UInt8) × SeekFile × Descriptor ρ :=
  if file.sysOffset ≠ offset then
    match D.lseek file.fd offset k with
    | (false, k) => (none, file, k)
    | (true, k) => readSeeked D { file with sysOffset := offset } size k
  else readSeeked D file size k

/-- The system with the reads of a device, for the build with `pread`. -/
def Sys.reading (S : Sys ρ) (D : Device ρ) : Sys ρ :=
  { S with pread := fun fd size off w => D.pread fd size off w }

/-- The parser's `cw_read_file` is the one on a device. -/
theorem readFile_reading (S : Sys ρ) (D : Device ρ) (file : CwFile) (size offset : Nat) (w : ρ) :
    readFile (S.reading D) file size offset w = readFileAt D file size offset w := rfl

/-! ## 2. One call

The second build is right as long as `sys_offset` tells the truth about the kernel's position.  A
read that succeeds moves both by what was read, and one that fails, or a seek that fails, moves
neither. -/

variable {D : Device ρ} {file : SeekFile} {size : Nat} {offset : Int} {k : Descriptor ρ}

/-- The cache is exact. -/
def SeekFile.Exact (file : SeekFile) (k : Descriptor ρ) : Prop := file.sysOffset = k.pos

/-- What the two builds have in common after a call: the bytes or the error, `file->offset`, and
the world. -/
structure Agree (r : Option (List UInt8) × CwFile × ρ)
    (r' : Option (List UInt8) × SeekFile × Descriptor ρ) : Prop where
  bytes : r'.1 = r.1
  file : r'.2.1.toCwFile = r.2.1
  world : r'.2.2.world = r.2.2

/-- Where the position is right, a read is what `pread` is there. -/
theorem readSeeked_agrees (D : Device ρ) (size : Nat) (hpos : (k.pos : Int) = offset)
    (hexact : file.Exact k) :
    Agree (readFileAt D file.toCwFile size offset k.world) (readSeeked D file size k) ∧
      (readSeeked D file size k).2.1.Exact (readSeeked D file size k).2.2 := by
  subst hpos
  have hat : D.outcomeAt file.fd k.pos k.world = D.outcome file.fd k.world :=
    if_neg (by omega)
  have hfails : D.outcome file.fd k.world = .seekFails ∨ D.outcome file.fd k.world = .readFails →
      Agree (readFileAt D file.toCwFile size k.pos k.world) (readSeeked D file size k) ∧
        (readSeeked D file size k).2.1.Exact (readSeeked D file size k).2.2 := by
    intro hout
    have hpread : D.pread file.fd size k.pos k.world = (none, D.tick k.world) := by
      unfold Device.pread
      rcases hout with hout | hout <;> rw [hat, hout]
    have hread : D.read file.fd size k = (none, { k with world := D.tick k.world }) := by
      unfold Device.read
      rcases hout with hout | hout <;> rw [hout]
    unfold readFileAt readSeeked
    rw [hpread, hread]
    exact ⟨⟨rfl, rfl, rfl⟩, hexact⟩
  cases hout : D.outcome file.fd k.world with
  | seekFails => exact hfails (Or.inl hout)
  | readFails => exact hfails (Or.inr hout)
  | reads n =>
    have hpread : D.pread file.fd size k.pos k.world
        = (some (bytesAt (D.content file.fd k.world) k.pos (min size n)), D.tick k.world) := by
      unfold Device.pread
      rw [hat, hout]
      rfl
    have hread : D.read file.fd size k
        = (some (bytesAt (D.content file.fd k.world) k.pos (min size n)),
            { world := D.tick k.world
              pos := k.pos +
                (bytesAt (D.content file.fd k.world) k.pos (min size n)).length }) := by
      unfold Device.read
      rw [hout]
    unfold readFileAt readSeeked
    rw [hpread, hread]
    refine ⟨⟨rfl, rfl, rfl⟩, ?_⟩
    unfold SeekFile.Exact at hexact ⊢
    simp only [hexact]
    push_cast
    rfl

/-- After a call the cache is exact, or the call failed and nothing has moved. -/
def Kept (file : SeekFile) (k : Descriptor ρ)
    (r : Option (List UInt8) × SeekFile × Descriptor ρ) : Prop :=
  r.2.1.Exact r.2.2 ∨ r.1 = none ∧ r.2.1 = file ∧ r.2.2.pos = k.pos

/-- One call: the builds agree when the cache is exact, or the position is already the offset that
is asked for. -/
theorem readFileSeek_agrees (D : Device ρ) (size : Nat) (offset : Int)
    (h : file.Exact k ∨ (k.pos : Int) = offset) :
    Agree (readFileAt D file.toCwFile size offset k.world) (readFileSeek D file size offset k) ∧
      Kept file k (readFileSeek D file size offset k) := by
  unfold readFileSeek
  by_cases hsys : file.sysOffset ≠ offset
  · rw [if_pos hsys]
    by_cases hout : D.outcomeAt file.fd offset k.world = .seekFails
    · have hseek : D.lseek file.fd offset k = (false, { k with world := D.tick k.world }) := by
        unfold Device.lseek
        rw [hout]
      have hpread : D.pread file.fd size offset k.world = (none, D.tick k.world) := by
        unfold Device.pread
        rw [hout]
      unfold readFileAt
      rw [hseek, hpread]
      exact ⟨⟨rfl, rfl, rfl⟩, Or.inr ⟨rfl, rfl, rfl⟩⟩
    · have hseek : D.lseek file.fd offset k = (true, { k with pos := offset.toNat }) := by
        unfold Device.lseek
        split
        next hf => exact absurd hf hout
        · rfl
      have hoffset : (offset.toNat : Int) = offset := by
        by_contra hneg
        have hlt : offset < 0 := by omega
        exact hout (if_pos hlt)
      rw [hseek]
      have hexact : SeekFile.Exact { file with sysOffset := offset }
          { k with pos := offset.toNat } := hoffset.symm
      obtain ⟨hagree, hkept⟩ := readSeeked_agrees D size hoffset hexact
      exact ⟨hagree, Or.inl hkept⟩
  · rw [if_neg hsys]
    have hoffset : file.sysOffset = offset := not_not.mp hsys
    -- no seek: the position is the offset, by the cache or as it happens
    have hpos : (k.pos : Int) = offset := by
      rcases h with hexact | hpos
      · exact hexact.symm.trans hoffset
      · exact hpos
    obtain ⟨hagree, hkept⟩ := readSeeked_agrees D size hpos (hoffset.trans hpos.symm)
    exact ⟨hagree, Or.inl hkept⟩

theorem Kept.exact {r : Option (List UInt8) × SeekFile × Descriptor ρ} (h : Kept file k r)
    (hexact : file.Exact k) : r.2.1.Exact r.2.2 := by
  rcases h with h | ⟨-, hfile, hpos⟩
  · exact h
  · unfold SeekFile.Exact
    rw [hfile, hpos]
    exact hexact

/-! ## 3. Any calls

The offsets of the calls are any, forward and backward, before the start of the file and behind its
end; so are the sizes, and calls may fail in between. -/

/-- The calls of a list, each with a size and an offset: what each returns, and the `file->offset`
it leaves. -/
def readAll (D : Device ρ) : List (Nat × Int) → CwFile → ρ → List (Option (List UInt8) × Nat)
  | [], _, _ => []
  | call :: calls, file, w =>
    let r := readFileAt D file call.1 call.2 w
    (r.1, r.2.1.offset) :: readAll D calls r.2.1 r.2.2

/-- The same with the second build. -/
def readAllSeek (D : Device ρ) :
    List (Nat × Int) → SeekFile → Descriptor ρ → List (Option (List UInt8) × Nat)
  | [], _, _ => []
  | call :: calls, file, k =>
    let r := readFileSeek D file call.1 call.2 k
    (r.1, r.2.1.offset) :: readAllSeek D calls r.2.1 r.2.2

/-- Any calls return the same in both builds, with the same `file->offset` after each.  The
induction is on the calls, and the cache is exact before each. -/
theorem readAll_agree (D : Device ρ) : ∀ (calls : List (Nat × Int)) (file : SeekFile)
    (k : Descriptor ρ), file.Exact k →
      readAllSeek D calls file k = readAll D calls file.toCwFile k.world := by
  intro calls
  induction calls with
  | nil =>
    intro file k _
    rfl
  | cons call calls ih =>
    intro file k hexact
    obtain ⟨hagree, hkept⟩ := readFileSeek_agrees D call.1 call.2 (Or.inl hexact)
    simp only [readAllSeek, readAll]
    rw [ih _ _ (hkept.exact hexact), hagree.bytes, hagree.world, ← hagree.file]

/-! ## 4. A parse

The system of the second build keeps a position and a `sys_offset` for each open file, in a stack:
nested calls of `cw_conf_parse` have each their own `cw_file_t`.  The relation between the two
worlds is that the handles belong to the open files, and that each is right in one of two ways
(`Handle.Right`). -/

/-- An open file of a parser with the second build: the kernel's position, and `sys_offset` in the
`cw_file_t` of the call that opened it. -/
structure Handle where
  pos : Nat
  sysOffset : Int
deriving DecidableEq, Repr

/-- The system, with the files of the calls under way, for the build without `pread`.  A file that
is opened has any `sys_offset`. -/
def Sys.seeking (S : Sys ρ) (D : Device ρ) (initial : List UInt8 → ρ → Int) :
    Sys (ρ × List Handle) where
  openFile name w :=
    let r := S.openFile name w.1
    (r.1, r.2, if r.1 = invalidFile then w.2 else ⟨0, initial name w.1⟩ :: w.2)
  fdInfo fd w := ((S.fdInfo fd w.1).1, (S.fdInfo fd w.1).2, w.2)
  alloc n w := ((S.alloc n w.1).1, (S.alloc n w.1).2, w.2)
  free p w := (S.free p w.1, w.2)
  pread fd size off w :=
    match w.2 with
    | [] => (none, w)
    | h :: hs =>
      let file : SeekFile := { fd := fd, size := 0, offset := off, sysOffset := h.sysOffset }
      let r := readFileSeek D file size off ⟨w.1, h.pos⟩
      (r.1, r.2.2.world, ⟨r.2.2.pos, r.2.1.sysOffset⟩ :: hs)
  closeFile fd w := ((S.closeFile fd w.1).1, (S.closeFile fd w.1).2, w.2.tail)
  clearArgs w := (S.clearArgs w.1, w.2)
  arrayPush w := ((S.arrayPush w.1).1, (S.arrayPush w.1).2, w.2)
  pnalloc n w := ((S.pnalloc n w.1).1, (S.pnalloc n w.1).2, w.2)
  load a w := S.load a w.1

/-- Handlers do not see the positions. -/
def handled : Lens (ρ × List Handle) ρ where
  get w := w.1
  put r w := (r, w.2)
  enter w := w
  leave _ w := w

/-- The cache is exact, or the position is the offset of the next read: no read has succeeded yet.
-/
def Handle.Right (x : Int × Nat) (h : Handle) : Prop := h.sysOffset = h.pos ∨ h.pos = x.2

/-- The worlds of the two builds. -/
def SameReads (fs : OpenFiles) (w : ρ) (w' : ρ × List Handle) : Prop :=
  w'.1 = w ∧ List.Forall₂ Handle.Right fs w'.2

theorem seeking_pread (S : Sys ρ) (D : Device ρ) (initial : List UInt8 → ρ → Int)
    {fs : OpenFiles} {w : ρ} {w' : ρ × List Handle} {fd : Int} {off : Nat} (n : Nat)
    (h : SameReads ((fd, off) :: fs) w w') :
    ((S.seeking D initial).pread fd n off w').1 = ((S.reading D).pread fd n off w).1 ∧
      SameReads ((fd, off + (((S.reading D).pread fd n off w).1.getD []).length) :: fs)
        ((S.reading D).pread fd n off w).2 ((S.seeking D initial).pread fd n off w').2 := by
  obtain ⟨w₁, hs⟩ := w'
  obtain ⟨rfl, hfs⟩ := h
  cases hfs with
  | @cons _ hd _ hs hright hfs =>
    have hstart : SeekFile.Exact { fd := fd, size := 0, offset := off, sysOffset := hd.sysOffset }
        (⟨w₁, hd.pos⟩ : Descriptor ρ) ∨ ((hd.pos : Int) = (off : Int)) := by
      rcases hright with hexact | hpos
      · exact Or.inl hexact
      · exact Or.inr (congrArg Nat.cast hpos)
    obtain ⟨hagree, hkept⟩ := readFileSeek_agrees D n _ hstart
    have hbytes := hagree.bytes
    have hworld := hagree.world
    simp only [readFileAt] at hbytes hworld
    simp only [Sys.reading, Sys.seeking]
    generalize readFileSeek D _ n _ _ = r at *
    generalize D.pread fd n off w₁ = ans at *
    obtain ⟨ans, w₂⟩ := ans
    cases ans with
    | none =>
      refine ⟨hbytes, hworld, .cons ?_ hfs⟩
      rcases hkept with hexact | ⟨-, hfile, hpos⟩
      · exact Or.inl hexact
      · unfold Handle.Right
        rw [hfile, hpos]
        exact hright
    | some bs =>
      refine ⟨hbytes, hworld, .cons ?_ hfs⟩
      rcases hkept with hexact | ⟨hnone, -, -⟩
      · exact Or.inl hexact
      · rw [hnone] at hbytes
        cases hbytes

/-- The two systems answer alike: each call of the parser's `cw_read_file` is at the offset of its
file. -/
theorem seeking_sim (S : Sys ρ) (D : Device ρ) (initial : List UInt8 → ρ → Int) :
    (S.reading D).Sim (S.seeking D initial) SameReads where
  openFile name h := by
    obtain ⟨rfl, hfs⟩ := h
    refine ⟨rfl, ?_, ?_⟩
    · intro hinvalid
      refine ⟨rfl, ?_⟩
      simp only [Sys.seeking]
      rw [if_pos (show (S.openFile name _).1 = invalidFile from hinvalid)]
      exact hfs
    · intro hvalid
      refine ⟨rfl, ?_⟩
      simp only [Sys.seeking]
      rw [if_neg (show ¬(S.openFile name _).1 = invalidFile from hvalid)]
      exact .cons (Or.inr rfl) hfs
  fdInfo fd h := by
    obtain ⟨rfl, hfs⟩ := h
    exact ⟨rfl, rfl, hfs⟩
  alloc n h := by
    obtain ⟨rfl, hfs⟩ := h
    exact ⟨rfl, rfl, hfs⟩
  free p h := by
    obtain ⟨rfl, hfs⟩ := h
    exact ⟨rfl, hfs⟩
  pread n h := seeking_pread S D initial n h
  closeFile h := by
    obtain ⟨rfl, hfs⟩ := h
    obtain ⟨_, _, -, hfs, hw⟩ := List.forall₂_cons_left_iff.mp hfs
    refine ⟨rfl, rfl, ?_⟩
    simp only [Sys.seeking, hw]
    exact hfs
  clearArgs h := by
    obtain ⟨rfl, hfs⟩ := h
    exact ⟨rfl, hfs⟩
  arrayPush h := by
    obtain ⟨rfl, hfs⟩ := h
    exact ⟨rfl, rfl, hfs⟩
  pnalloc n h := by
    obtain ⟨rfl, hfs⟩ := h
    exact ⟨rfl, rfl, hfs⟩
  load a h := by
    obtain ⟨rfl, -⟩ := h
    rfl

theorem handled_sim : (whole : Lens ρ ρ).Sim handled SameReads where
  get h := h.1
  put _ h := ⟨rfl, h.2⟩
  enter h := ⟨h.1, h⟩
  leave _ h := h

/-- The outer files, as `SameReads` has them. -/
def Handle.files (hs : List Handle) : OpenFiles := hs.map fun h => (0, h.pos)

theorem Handle.files_right (hs : List Handle) : List.Forall₂ Handle.Right (Handle.files hs) hs := by
  induction hs with
  | nil => exact .nil
  | cons h hs ih => exact .cons (Or.inr rfl) ih

/-- **The two builds of `cw_read_file` agree**: on any calls that start with the cache exact, and
in the parse of a file whatever `sys_offset` is at the start, where the logs have the bytes, `n`
and `file->offset` of every call. -/
theorem readFile_builds_agree :
    (∀ (ρ : Type) (D : Device ρ) (calls : List (Nat × Int)) (file : CwFile) (pos : Nat) (w : ρ),
      readAllSeek D calls { file with sysOffset := pos } ⟨w, pos⟩ = readAll D calls file w) ∧
    ∀ (ρ : Type) (S : Sys ρ) (D : Device ρ) (initial : List UInt8 → ρ → Int) (T : Table ρ) (n : Nat)
        (filename : List UInt8) (cf : Cf ρ) (log : List Event) (hs : List Handle),
      let r := confParse (S.reading D).traced T.traced n (some filename)
        (cf.inWorld (cf.world, log))
      let r' := confParse (S.seeking D initial).traced (T.lift handled.logged) n (some filename)
        (cf.inWorld ((cf.world, hs), log))
      r'.1 = r.1 ∧ ∃ hs', r'.2 = r.2.inWorld ((r.2.world.1, hs'), r.2.world.2) := by
  refine ⟨?_, ?_⟩
  · intro ρ D calls file pos w
    exact readAll_agree D calls _ _ rfl
  · intro ρ S D initial T n filename cf log hs
    have hstart : Traced SameReads (Handle.files hs) (cf.world, log) ((cf.world, hs), log) :=
      ⟨rfl, rfl, Handle.files_right hs⟩
    obtain ⟨h1, ⟨⟨w, hs'⟩, log'⟩, h2, hlog, hworld, -⟩ :=
      confParse_sim (seeking_sim S D initial).traced handled_sim.logged T n filename
        _ (cf.inWorld (cf.world, log)) hstart
    refine ⟨h1, hs', h2.trans ?_⟩
    obtain rfl : log' = _ := hlog
    obtain rfl : w = _ := hworld
    rfl

end

end Capwap
