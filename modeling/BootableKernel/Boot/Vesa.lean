import Mathlib.Data.BitVec
import Mathlib.Tactic.Set

/-!
# Setting the video mode

`vbe_set_mode` in `vesa.asm` runs in real mode, before the kernel. It asks the video BIOS
for the list of modes, goes through it word by word, and sets the first mode that has the
size and depth asked for. The list ends with `0xFFFF`.

What the BIOS answers is a parameter. It may leave anything in the registers that the loop
uses; the loop keeps its place in memory, in `.segment` and `.offset`.

The test for the end of the list, `cmp dword [.mode], 0xffff`, compares four bytes: the
word at `.mode` and the first two bytes of `vbe_info_block`, which follows it.
-/

namespace BootableKernel

/-- `vbe_info`. -/
structure VbeScreenInfo where
  width : BitVec 16
  height : BitVec 16
  bpp : BitVec 8
  physicalBuffer : BitVec 32
  bytesPerPixel : BitVec 32
  bytesPerLine : BitVec 16
  xCurMax : BitVec 16
  yCurMax : BitVec 16
  deriving DecidableEq

namespace Vesa

/-! ## The BIOS -/

/-- What is read of `mode_info_block`. -/
structure ModeInfo where
  pitch : BitVec 16
  width : BitVec 16
  height : BitVec 16
  bpp : BitVec 8
  framebuffer : BitVec 32
  deriving DecidableEq

/-- The answer to `AX = 0x4F01`. -/
structure ModeAnswer where
  ax : BitVec 16
  /-- What is left in the registers of the loop. -/
  fs : BitVec 16
  si : BitVec 16
  info : ModeInfo

/-- The video BIOS, and the memory its list of modes is in. -/
structure Bios where
  /-- `AX` after `AX = 0x4F00`, and what is read of `vbe_info_block`. -/
  status : BitVec 16
  signature : BitVec 32
  offset : BitVec 16
  segment : BitVec 16
  /-- `AX = 0x4F01`. -/
  modeInfo : BitVec 16 → ModeAnswer
  /-- `AX` after `AX = 0x4F02`. -/
  setMode : BitVec 16 → BitVec 16
  /-- The word at a segment and an offset. -/
  word : BitVec 16 → BitVec 16 → BitVec 16

/-- The arguments of `vbe_set_mode`. -/
structure Request where
  width : BitVec 16
  height : BitVec 16
  bpp : BitVec 8

/-- The mode has the size and the depth asked for. -/
def Request.suits (req : Request) (info : ModeInfo) : Bool :=
  req.width = info.width && req.height = info.height && req.bpp = info.bpp

/-! ## `.find_mode` -/

/-- The state of the loop: two registers and three variables, and which words of the list
were read, the latest first. -/
structure Finder where
  fs : BitVec 16
  si : BitVec 16
  segment : BitVec 16
  offset : BitVec 16
  mode : BitVec 16
  reads : List (BitVec 16 × BitVec 16)

/-- How the loop is left. -/
inductive Outcome
  /-- Not yet. -/
  | running
  /-- To `.error`. -/
  | error
  /-- To the code that sets the mode. -/
  | found (mode : BitVec 16) (info : ModeInfo)
  deriving DecidableEq

namespace Finder

/-- Read the next mode. -/
def fetch (bios : Bios) (s : Finder) : Finder :=
  { s with
    mode := bios.word s.fs s.si
    si := s.si + 2
    offset := s.si + 2
    fs := 0
    reads := (s.fs, s.si) :: s.reads }

/-- The registers after a call of the BIOS. -/
def clobber (a : ModeAnswer) (s : Finder) : Finder := { s with fs := a.fs, si := a.si }

/-- `.next_mode`. -/
def reload (s : Finder) : Finder := { s with fs := s.segment, si := s.offset }

/-- `dword [.mode]`. -/
def modeDword (bios : Bios) (s : Finder) : BitVec 32 := bios.signature.setWidth 16 ++ s.mode

/-- The state in which the loop is entered. -/
def start (bios : Bios) : Finder := ⟨bios.segment, bios.offset, bios.segment, bios.offset, 0, []⟩

end Finder

/-- `.find_mode`, for `n` rounds at most. -/
def findMode (bios : Bios) (req : Request) : ℕ → Finder → Outcome × Finder
  | 0, s => (.running, s)
  | n + 1, s =>
      let s := s.fetch bios
      if s.modeDword bios = 0xffff then (.error, s)
      else
        let a := bios.modeInfo s.mode
        let s := s.clobber a
        if a.ax ≠ 0x4f then (.error, s)
        else if req.suits a.info then (.found s.mode a.info, s)
        else findMode bios req n s.reload

/-- What is saved of a mode that was found. -/
def save (req : Request) (info : ModeInfo) : VbeScreenInfo where
  width := req.width
  height := req.height
  bpp := req.bpp
  physicalBuffer := info.framebuffer
  bytesPerPixel := req.bpp.setWidth 32 >>> 3
  bytesPerLine := info.pitch
  xCurMax := (req.width >>> 3) - 1
  yCurMax := (req.height >>> 4) - 1

/-- What `vbe_set_mode` leaves behind. -/
structure Done where
  info : VbeScreenInfo
  carry : Bool
  /-- The argument of `AX = 0x4F02`, if it got that far. -/
  modeSet : Option (BitVec 16)

/-- `vbe_set_mode`, with at most `n` rounds of its loop. -/
def vbeSetMode (bios : Bios) (req : Request) (n : ℕ) (vbe : VbeScreenInfo) : Option Done :=
  if bios.status ≠ 0x4f then some ⟨vbe, true, none⟩
  else
    match (findMode bios req n (.start bios)).1 with
    | .running => none
    | .error => some ⟨vbe, true, none⟩
    | .found mode info =>
        let mode := mode ||| 0x4000
        some ⟨save req info, bios.setMode mode ≠ 0x4f, some mode⟩

/-! ## The list of modes -/

/-- The words from `o` on are these modes and the end of the list. -/
def Lists (word : BitVec 16 → BitVec 16 → BitVec 16) (segment : BitVec 16) :
    BitVec 16 → List (BitVec 16) → Prop
  | o, [] => word segment o = 0xffff
  | o, m :: modes => word segment o = m ∧ m ≠ 0xffff ∧ Lists word segment (o + 2) modes

/-- Where the first `n` words from `o` on are. -/
def places (segment : BitVec 16) : ℕ → BitVec 16 → List (BitVec 16 × BitVec 16)
  | 0, _ => []
  | n + 1, o => (segment, o) :: places segment n (o + 2)

/-- The loop stops, has read no word behind the end of the list, and has found the first
mode of the list that suits, if there is one. -/
def Finds (bios : Bios) (req : Request) (modes : List (BitVec 16)) : Prop :=
  ∃ n, ∃ k ≤ modes.length + 1,
    (findMode bios req n (.start bios)).2.reads.reverse = places bios.segment k bios.offset ∧
    (findMode bios req n (.start bios)).1 =
      match modes.find? fun m => req.suits (bios.modeInfo m).info with
      | some m => .found m (bios.modeInfo m).info
      | none => .error

/-! ## A round of the loop -/

/-- The loop at its head, about to read the word at `o`. -/
def Finder.atHead (segment o mode : BitVec 16) (reads : List (BitVec 16 × BitVec 16)) : Finder :=
  ⟨segment, o, segment, o, mode, reads⟩

section Round
variable {bios : Bios} {req : Request}

/-- With the signature in place the end of the list is never recognised. -/
theorem modeDword_ne (hsig : bios.signature = 0x41534556) (s : Finder) :
    s.modeDword bios ≠ 0xffff := by
  intro heq
  have hvalue := congrArg BitVec.toNat heq
  rw [Finder.modeDword, hsig, BitVec.toNat_append, ← Nat.shiftLeft_add_eq_or_of_lt s.mode.isLt,
    Nat.shiftLeft_eq, BitVec.toNat_setWidth] at hvalue
  have hlt := s.mode.isLt
  simp only [BitVec.reduceToNat] at hvalue
  omega

/-- What is left in the registers when the word `m` at `o` has been asked about. -/
def Finder.asked (bios : Bios) (segment o m : BitVec 16)
    (reads : List (BitVec 16 × BitVec 16)) : Finder :=
  ⟨(bios.modeInfo m).fs, (bios.modeInfo m).si, segment, o + 2, m, (segment, o) :: reads⟩

variable {segment o m mode : BitVec 16} {reads : List (BitVec 16 × BitVec 16)} (n : ℕ)

/-- A round for the word `m`. -/
theorem findMode_succ (hsig : bios.signature = 0x41534556) (hm : bios.word segment o = m) :
    findMode bios req (n + 1) (.atHead segment o mode reads) =
      if (bios.modeInfo m).ax ≠ 0x4f then (.error, .asked bios segment o m reads)
      else if req.suits (bios.modeInfo m).info then
        (.found m (bios.modeInfo m).info, .asked bios segment o m reads)
      else findMode bios req n (.atHead segment (o + 2) m ((segment, o) :: reads)) := by
  rw [findMode, if_neg (modeDword_ne hsig _), ← hm]
  rfl

theorem findMode_found (hsig : bios.signature = 0x41534556) (hm : bios.word segment o = m)
    (hax : (bios.modeInfo m).ax = 0x4f) (hsuits : req.suits (bios.modeInfo m).info = true) :
    findMode bios req (n + 1) (.atHead segment o mode reads) =
      (.found m (bios.modeInfo m).info, .asked bios segment o m reads) := by
  rw [findMode_succ n hsig hm, if_neg (not_not_intro hax), if_pos hsuits]

theorem findMode_next (hsig : bios.signature = 0x41534556) (hm : bios.word segment o = m)
    (hax : (bios.modeInfo m).ax = 0x4f) (hsuits : ¬ req.suits (bios.modeInfo m).info = true) :
    findMode bios req (n + 1) (.atHead segment o mode reads) =
      findMode bios req n (.atHead segment (o + 2) m ((segment, o) :: reads)) := by
  rw [findMode_succ n hsig hm, if_neg (not_not_intro hax), if_neg hsuits]

theorem findMode_refused (hsig : bios.signature = 0x41534556) (hm : bios.word segment o = m)
    (hax : (bios.modeInfo m).ax ≠ 0x4f) :
    findMode bios req (n + 1) (.atHead segment o mode reads) =
      (.error, .asked bios segment o m reads) := by
  rw [findMode_succ n hsig hm, if_pos hax]

/-- No word that was read is forgotten, and a loop that was left has read one more. -/
theorem length_reads_le (bios : Bios) (req : Request) (n : ℕ) (s : Finder) :
    s.reads.length ≤ (findMode bios req n s).2.reads.length ∧
      ((findMode bios req n s).1 ≠ .running →
        s.reads.length < (findMode bios req n s).2.reads.length) := by
  induction n generalizing s with
  | zero => exact ⟨le_rfl, fun h => absurd rfl h⟩
  | succ n ih =>
      have hone : s.reads.length < (s.fetch bios).reads.length := Nat.lt_succ_self _
      rw [findMode]
      dsimp only
      split
      · exact ⟨hone.le, fun _ => hone⟩
      · split
        · exact ⟨hone.le, fun _ => hone⟩
        · split
          · exact ⟨hone.le, fun _ => hone⟩
          · have hrest := (ih ((s.fetch bios).clobber
              (bios.modeInfo (s.fetch bios).mode)).reload).1
            exact ⟨hone.le.trans hrest, fun _ => hone.trans_le hrest⟩

/-- More rounds make no difference to a loop that was left. -/
theorem findMode_add (bios : Bios) (req : Request) (n j : ℕ) (s : Finder)
    (h : (findMode bios req n s).1 ≠ .running) :
    findMode bios req (n + j) s = findMode bios req n s := by
  induction n generalizing s with
  | zero => exact absurd rfl h
  | succ n ih =>
      rw [findMode] at h
      rw [Nat.add_right_comm, findMode, findMode]
      dsimp only at h ⊢
      split
      · rfl
      · rename_i hdword
        rw [if_neg hdword] at h
        split
        · rfl
        · rename_i hax
          rw [if_neg hax] at h
          split
          · rfl
          · rename_i hsuits
            rw [if_neg hsuits] at h
            exact ih _ h

end Round

/-! ## The whole loop -/

section Loop
variable {bios : Bios} {req : Request} {segment : BitVec 16}

/-- A mode that suits is found, the first one, before the end of the list. -/
theorem findMode_of_find (hsig : bios.signature = 0x41534556) {modes : List (BitVec 16)}
    {o m : BitVec 16} (mode : BitVec 16) (reads : List (BitVec 16 × BitVec 16))
    (hlist : Lists bios.word segment o modes) (hax : ∀ m ∈ modes, (bios.modeInfo m).ax = 0x4f)
    (hfind : modes.find? (fun m => req.suits (bios.modeInfo m).info) = some m) :
    ∃ k ≤ modes.length, ∃ s : Finder,
      findMode bios req k (.atHead segment o mode reads) = (.found m (bios.modeInfo m).info, s) ∧
      s.reads = (places segment k o).reverse ++ reads := by
  induction modes generalizing o mode reads with
  | nil => exact absurd hfind (by simp)
  | cons w modes ih =>
      obtain ⟨hw, -, hrest⟩ := hlist
      rw [List.forall_mem_cons] at hax
      by_cases hsuits : req.suits (bios.modeInfo w).info = true
      · simp only [List.find?_cons, hsuits, Option.some.injEq] at hfind
        subst hfind
        exact ⟨1, by simp, _, findMode_found 0 hsig hw hax.1 hsuits, rfl⟩
      · simp only [List.find?_cons, hsuits] at hfind
        obtain ⟨k, hk, s, hrun, hreads⟩ := ih w ((segment, o) :: reads) hrest hax.2 hfind
        refine ⟨k + 1, Nat.succ_le_succ hk, s, ?_, ?_⟩
        · rw [findMode_next k hsig hw hax.1 hsuits, hrun]
        · rw [hreads, places, List.reverse_cons, List.append_assoc]
          rfl

/-- Without one, the loop comes to the end of the list. -/
theorem findMode_of_none (hsig : bios.signature = 0x41534556) {modes : List (BitVec 16)}
    {o : BitVec 16} (mode : BitVec 16) (reads : List (BitVec 16 × BitVec 16))
    (hlist : Lists bios.word segment o modes) (hax : ∀ m ∈ modes, (bios.modeInfo m).ax = 0x4f)
    (hnone : ∀ m ∈ modes, ¬ req.suits (bios.modeInfo m).info = true) (n : ℕ) :
    ∃ o' mode', bios.word segment o' = 0xffff ∧
      places segment (modes.length + 1) o = places segment modes.length o ++ [(segment, o')] ∧
      findMode bios req (modes.length + n) (.atHead segment o mode reads) =
        findMode bios req n
          (.atHead segment o' mode' ((places segment modes.length o).reverse ++ reads)) := by
  induction modes generalizing o mode reads with
  | nil =>
      refine ⟨o, mode, hlist, rfl, ?_⟩
      rw [List.length_nil, Nat.zero_add]
      rfl
  | cons w modes ih =>
      obtain ⟨hw, -, hrest⟩ := hlist
      rw [List.forall_mem_cons] at hax hnone
      obtain ⟨o', mode', hend, hplaces, hrun⟩ :=
        ih w ((segment, o) :: reads) hrest hax.2 hnone.2
      refine ⟨o', mode', hend, ?_, ?_⟩
      · rw [List.length_cons, places, hplaces]
        rfl
      · rw [List.length_cons, Nat.add_right_comm, findMode_next _ hsig hw hax.1 hnone.1, hrun,
          places, List.reverse_cons, List.append_assoc]
        rfl

@[simp] theorem length_places (segment : BitVec 16) (n : ℕ) (o : BitVec 16) :
    (places segment n o).length = n := by
  induction n generalizing o with
  | zero => rfl
  | succ n ih => rw [places, List.length_cons, ih]

end Loop

section Search
variable {bios : Bios} {req : Request} {modes : List (BitVec 16)}

theorem finds_of_exists (hsig : bios.signature = 0x41534556)
    (hlist : Lists bios.word bios.segment bios.offset modes)
    (hax : ∀ m ∈ modes, (bios.modeInfo m).ax = 0x4f)
    (hex : ∃ m ∈ modes, req.suits (bios.modeInfo m).info = true) : Finds bios req modes := by
  have hstart : Finder.start bios = .atHead bios.segment bios.offset 0 [] := rfl
  obtain ⟨m, hfind⟩ := Option.isSome_iff_exists.mp (List.find?_isSome.mpr hex)
  obtain ⟨k, hk, s, hrun, hreads⟩ := findMode_of_find hsig 0 [] hlist hax hfind
  refine ⟨k, k, Nat.le_succ_of_le hk, ?_, ?_⟩
  · rw [hstart, hrun, hreads, List.append_nil, List.reverse_reverse]
  · rw [hstart, hrun, hfind]

/-- If the BIOS refuses mode `0xFFFF`, that ends the search. -/
theorem finds_of_refused (hsig : bios.signature = 0x41534556)
    (hlist : Lists bios.word bios.segment bios.offset modes)
    (hax : ∀ m ∈ modes, (bios.modeInfo m).ax = 0x4f)
    (hnone : ∀ m ∈ modes, ¬ req.suits (bios.modeInfo m).info = true)
    (hend : (bios.modeInfo 0xffff).ax ≠ 0x4f) : Finds bios req modes := by
  have hstart : Finder.start bios = .atHead bios.segment bios.offset 0 [] := rfl
  have hfind := List.find?_eq_none.mpr hnone
  obtain ⟨o, mode, hword, hplaces, hround⟩ := findMode_of_none hsig 0 [] hlist hax hnone 1
  rw [findMode_refused 0 hsig hword hend] at hround
  refine ⟨modes.length + 1, modes.length + 1, le_rfl, ?_, ?_⟩
  · rw [hstart, hround, hplaces, Finder.asked, List.reverse_cons, List.append_nil,
      List.reverse_reverse]
  · rw [hstart, hround, hfind]

/-- If it answers instead, either its answer suits and mode `0xFFFF` is set, or the words
behind the end of the list are taken for modes. -/
theorem not_finds (hsig : bios.signature = 0x41534556)
    (hlist : Lists bios.word bios.segment bios.offset modes)
    (hax : ∀ m ∈ modes, (bios.modeInfo m).ax = 0x4f)
    (hnone : ∀ m ∈ modes, ¬ req.suits (bios.modeInfo m).info = true)
    (hend : (bios.modeInfo 0xffff).ax = 0x4f) : ¬ Finds bios req modes := by
  rintro ⟨n, k, hk, hreads, hrun⟩
  have hstart : Finder.start bios = .atHead bios.segment bios.offset 0 [] := rfl
  rw [List.find?_eq_none.mpr hnone] at hrun
  obtain ⟨o, mode, hword, -, hround⟩ := findMode_of_none hsig 0 [] hlist hax hnone (n + 2)
  -- The loop was left after `n` rounds, so it comes to the same after more of them.
  have hsame := findMode_add bios req n (modes.length + 2) (.start bios) (by rw [hrun]; simp)
  rw [Nat.add_left_comm, hstart, hround, List.append_nil] at hsame
  by_cases hsuits : req.suits (bios.modeInfo 0xffff).info = true
  · rw [findMode_found _ hsig hword hend hsuits] at hsame
    rw [hstart, ← hsame] at hrun
    exact absurd hrun (by simp)
  · rw [findMode_next _ hsig hword hend hsuits] at hsame
    have hlong := (length_reads_le bios req (n + 1) (.atHead bios.segment (o + 2) 0xffff
      ((bios.segment, o) :: (places bios.segment modes.length bios.offset).reverse))).2
    have hcount : (findMode bios req n (.start bios)).2.reads.length = k := by
      rw [← List.length_reverse, hreads, length_places]
    rw [hsame, ← hstart, hrun, hcount] at hlong
    have hmore := hlong (by simp)
    simp only [Finder.atHead, List.length_cons, List.length_reverse, length_places] at hmore
    omega

end Search

/-- With `"VESA"` for a signature and an answer for every mode of the list, the loop stops at
the end of the list and finds the first mode that suits, if and only if there is one or the
BIOS refuses to answer for mode `0xFFFF`. -/
theorem finds_iff (bios : Bios) (req : Request) {modes : List (BitVec 16)}
    (hsig : bios.signature = 0x41534556) (hlist : Lists bios.word bios.segment bios.offset modes)
    (hax : ∀ m ∈ modes, (bios.modeInfo m).ax = 0x4f) :
    Finds bios req modes ↔
      (∃ m ∈ modes, req.suits (bios.modeInfo m).info = true) ∨ (bios.modeInfo 0xffff).ax ≠ 0x4f := by
  by_cases hex : ∃ m ∈ modes, req.suits (bios.modeInfo m).info = true
  · exact iff_of_true (finds_of_exists hsig hlist hax hex) (.inl hex)
  · have hnone : ∀ m ∈ modes, ¬ req.suits (bios.modeInfo m).info = true :=
      fun m hm hsuits => hex ⟨m, hm, hsuits⟩
    rw [or_iff_right hex]
    by_cases hend : (bios.modeInfo 0xffff).ax = 0x4f
    · exact iff_of_false (not_finds hsig hlist hax hnone hend) (not_not_intro hend)
    · exact iff_of_true (finds_of_refused hsig hlist hax hnone hend) hend

/-! ## The request of the boot loader -/

/-- `real_mode.asm` asks for 800 by 600 pixels of 32 bits. -/
def bootRequest : Request := ⟨800, 600, 32⟩

/-- A BIOS with this list, which has an answer for every mode number. -/
def sampleBios (modes : List (BitVec 16)) : Bios where
  status := 0x4f
  signature := 0x41534556
  offset := 0
  segment := 0xc000
  modeInfo m := ⟨0x4f, 0, 0, if m = 0x115 then ⟨3200, 800, 600, 32, 0xfd000000⟩
    else ⟨4096, 1024, 768, 32, 0xfd000000⟩⟩
  setMode _ := 0x4f
  word _ o := modes[o.toNat / 2]?.getD 0xffff

theorem finds_bootRequest : Finds (sampleBios [0x118, 0x115]) bootRequest [0x118, 0x115] := by
  have hlist : Lists (sampleBios [0x118, 0x115]).word 0xc000 0 [0x118, 0x115] :=
    ⟨by decide, by decide, by decide, by decide,
      show (sampleBios [0x118, 0x115]).word 0xc000 4 = 0xffff by decide⟩
  exact (finds_iff (sampleBios [0x118, 0x115]) bootRequest rfl hlist fun _ _ => rfl).mpr
    (.inl ⟨0x115, by decide, by decide⟩)

/-- When the only mode of the list does not suit, the search goes on behind the list. -/
theorem not_finds_bootRequest : ¬ Finds (sampleBios [0x118]) bootRequest [0x118] := by
  have hlist : Lists (sampleBios [0x118]).word 0xc000 0 [0x118] :=
    ⟨by decide, by decide, show (sampleBios [0x118]).word 0xc000 2 = 0xffff by decide⟩
  have hnone : ∀ m ∈ [(0x118 : BitVec 16)],
      ¬ bootRequest.suits ((sampleBios [0x118]).modeInfo m).info = true := by
    intro m hm
    rw [List.mem_singleton.mp hm]
    decide
  have hsig : (sampleBios [0x118]).signature = 0x41534556 := rfl
  exact not_finds hsig hlist (fun _ _ => rfl) hnone rfl

/-- `vbe_info` before the call. -/
def blank : VbeScreenInfo := ⟨0, 0, 0, 0, 0, 0, 0, 0⟩

/-- `vbe_info` as some BIOS makes the boot loader leave it. The loader does not look at the
carry flag. -/
def LeftBehind (vbe : VbeScreenInfo) : Prop :=
  ∃ bios n done, vbeSetMode bios bootRequest n blank = some done ∧ done.info = vbe

/-- A BIOS with a mode that suits, with the given pitch and frame buffer. -/
def obligingBios (pitch : BitVec 16) (framebuffer : BitVec 32) : Bios where
  status := 0x4f
  signature := 0x41534556
  offset := 0
  segment := 0
  modeInfo _ := ⟨0x4f, 0, 0, ⟨pitch, 800, 600, 32, framebuffer⟩⟩
  setMode _ := 0x4f
  word _ _ := 0x115

theorem vbeSetMode_obliging (pitch : BitVec 16) (framebuffer : BitVec 32) :
    vbeSetMode (obligingBios pitch framebuffer) bootRequest 1 blank =
      some ⟨save bootRequest ⟨pitch, 800, 600, 32, framebuffer⟩, false, some 0x4115⟩ := by
  have hok : ¬ (obligingBios pitch framebuffer).status ≠ 0x4f := not_not_intro rfl
  have hstart : Finder.start (obligingBios pitch framebuffer) = .atHead 0 0 0 [] := rfl
  have hfound : findMode (obligingBios pitch framebuffer) bootRequest 1 (.atHead 0 0 0 []) =
      (.found 0x115 ⟨pitch, 800, 600, 32, framebuffer⟩,
        .asked (obligingBios pitch framebuffer) 0 0 0x115 []) :=
    findMode_found 0 rfl rfl rfl rfl
  rw [vbeSetMode, if_neg hok, hstart, hfound]
  rfl

/-- That is, not filled in at all, or filled in for a mode of the right size, with any pitch
and any address of its frame buffer. -/
theorem leftBehind_iff (vbe : VbeScreenInfo) :
    LeftBehind vbe ↔ vbe = blank ∨
      ∃ pitch framebuffer, vbe = save bootRequest ⟨pitch, 800, 600, 32, framebuffer⟩ := by
  constructor
  · rintro ⟨bios, n, done, hdone, rfl⟩
    rw [vbeSetMode] at hdone
    split at hdone
    · rw [← Option.some.inj hdone]
      exact .inl rfl
    · split at hdone
      · exact absurd hdone (by simp)
      · rw [← Option.some.inj hdone]
        exact .inl rfl
      · rename_i mode info _
        rw [← Option.some.inj hdone]
        exact .inr ⟨info.pitch, info.framebuffer, rfl⟩
  · rintro (rfl | ⟨pitch, framebuffer, rfl⟩)
    · exact ⟨{ sampleBios [] with status := 0 }, 0, ⟨blank, true, none⟩, rfl, rfl⟩
    · exact ⟨_, 1, _, vbeSetMode_obliging pitch framebuffer, rfl⟩

end Vesa
end BootableKernel
