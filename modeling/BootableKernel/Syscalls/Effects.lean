import BootableKernel.Memory.Sections
import BootableKernel.Syscalls.Handlers

/-!
# What a system call writes

`Emits` lists everything a system call can do besides changing the state of the memory
manager: messages made of numbers, which always fit into the buffer of `log`; texts of the
caller; the two messages that quote a path name; and the `winsize` of `ioctl`. The last
two depend on the caller: the length of a path name is not limited, and the pointer given
to `ioctl` is not checked.

Logging writes memory too: the stack, where the buffer of `log` is, and the buffers of the
terminal. What it leaves there is not computed. A call is looked at with every content
that this memory can have when a text is formatted, and a path name may lie in it.
-/

namespace BootableKernel

open Paging

namespace Syscalls

/-! ## Path names -/

theorem ne_zero_of_mem_stringUpTo {m : ByteMemory} {n : ℕ} {a : Word} {c : BitVec 8}
    (h : c ∈ stringUpTo m n a) : c ≠ 0 := by
  induction n generalizing a with
  | zero => exact absurd h (by simp [stringUpTo])
  | succ n ih =>
      rw [stringUpTo] at h
      split at h
      · exact absurd h (by simp)
      · rcases List.mem_cons.mp h with rfl | h
        · assumption
        · exact ih h

/-- `strcmp` tells strings apart. -/
theorem eq_of_strcmp {s t : List (BitVec 8)} (hs : ∀ c ∈ s, c ≠ 0) (ht : ∀ c ∈ t, c ≠ 0)
    (h : strcmp s t = 0) : s = t := by
  have toInt_ne : ∀ c : BitVec 8, c ≠ 0 → c.toInt ≠ 0 := fun c hc h₀ =>
    hc (BitVec.eq_of_toInt_eq h₀)
  fun_induction strcmp s t with
  | case1 => rfl
  | case2 d ds => exact absurd (by omega) (toInt_ne d (ht d (List.mem_cons_self ..)))
  | case3 c cs => exact absurd (by omega) (toInt_ne c (hs c (List.mem_cons_self ..)))
  | case4 c cs ds ih =>
      rw [ih (List.forall_mem_cons.mp hs).2 (List.forall_mem_cons.mp ht).2 h]
  | case5 c cs d ds hne => exact absurd (BitVec.eq_of_toInt_eq (by omega)) hne

/-- A string is at least as long as the bytes before its terminator. -/
theorem le_length_stringUpTo {m : ByteMemory} {n k : ℕ} {a : Word} (hk : k ≤ n)
    (h : ∀ i < k, m (a + BitVec.ofNat 64 i) ≠ 0) : k ≤ (stringUpTo m n a).length := by
  induction n generalizing a k with
  | zero => omega
  | succ n ih =>
      cases k with
      | zero => exact Nat.zero_le _
      | succ k =>
          have h₀ : m a ≠ 0 := by simpa using h 0 (by omega)
          rw [stringUpTo, if_neg h₀, List.length_cons]
          apply Nat.succ_le_succ
          apply ih (by omega)
          intro i hi
          have := h (i + 1) (by omega)
          rwa [Nat.add_comm, BitVec.ofNat_add, ← BitVec.add_assoc] at this

/-- A string is the same in two memories that agree on its bytes and the terminator. -/
theorem stringUpTo_congr {m m' : ByteMemory} {n : ℕ} {a : Word}
    (h : ∀ i ≤ (stringUpTo m n a).length,
      m' (a + BitVec.ofNat 64 i) = m (a + BitVec.ofNat 64 i)) :
    stringUpTo m' n a = stringUpTo m n a := by
  induction n generalizing a with
  | zero => rfl
  | succ n ih =>
      have h₀ : m' a = m a := by simpa using h 0 (Nat.zero_le _)
      rw [stringUpTo, stringUpTo, h₀]
      split
      · rfl
      · rename_i hne
        rw [stringUpTo, if_neg hne, List.length_cons] at h
        congr 1
        apply ih
        intro i hi
        have := h (i + 1) (Nat.succ_le_succ hi)
        rwa [Nat.add_comm, BitVec.ofNat_add, ← BitVec.add_assoc] at this

/-! ## What logging writes -/

/-- `m'` is `m` with other bytes in `L`, the memory that logging writes. -/
def LogsInto (L : Set Word) (m m' : ByteMemory) : Prop := Set.EqOn m' m Lᶜ

/-- Whatever logging leaves in its memory, the path name at `a` has at most 469 bytes. -/
def ShortPath (L : Set Word) (m : ByteMemory) (a : Word) : Prop :=
  ∀ m', LogsInto L m m' → (stringAt m' a).length ≤ 469

section Logging
variable {L : Set Word} {m m' : ByteMemory} {a : Word}

theorem LogsInto.refl (L : Set Word) (m : ByteMemory) : LogsInto L m m := Set.eqOn_refl m Lᶜ

/-- A path name that logging does not write to is what it was. -/
theorem LogsInto.stringAt_eq (h : LogsInto L m m')
    (hout : ∀ i ≤ (stringAt m a).length, a + BitVec.ofNat 64 i ∉ L) : stringAt m' a = stringAt m a :=
  stringUpTo_congr fun i hi => h (hout i hi)

/-- For such a path name only its length matters. -/
theorem shortPath_iff (hout : ∀ i ≤ (stringAt m a).length, a + BitVec.ofNat 64 i ∉ L) :
    ShortPath L m a ↔ (stringAt m a).length ≤ 469 := by
  constructor
  · intro h
    exact h m (.refl L m)
  · intro h m' hm'
    rwa [hm'.stringAt_eq hout]

end Logging

/-! ## Events -/

section Events
variable (m : ByteMemory) (vbe : VbeInfo) (P : Platform)

/-- What the call with these arguments can do. -/
inductive Emits (σ : Paging) (a b c n : Word) : Event → Prop
  /-- A message made of numbers. -/
  | short (fmt : String) (args : List Word) (hshort : Short (bytes fmt)) : Emits σ a b c n (.log fmt args)
  /-- A text of the caller. -/
  | text (buf : List (BitVec 8)) : Emits σ a b c n (.logN buf)
  | path (hn : n = nrOpen) : Emits σ a b c n (.log "SYSCALL: [open] %s\n" [a])
  | refusal (hn : n = nrOpen) (hne : strcmp (stringAt m a) (bytes "/dev/mem") ≠ 0) :
      Emits σ a b c n (.log "open: pathname must be \"/dev/mem\", got \"%s\"\n" [a])
  /-- The `winsize`, stored where the caller said. -/
  | store (hn : n = nrIoctl) (hreq : b.setWidth 32 = 0x5413)
      (hmapped : ∀ i < 8, σ.storable P (c + BitVec.ofNat 64 i) = true) :
      Emits σ a b c n (.store c (winsize vbe.yCurMax vbe.xCurMax vbe.width vbe.height))

theorem mem_writevLoop {n : ℕ} {iov : Word} {written : BitVec 32} {ev : Event}
    (h : ev ∈ (writevLoop m n iov written).events) : ∃ buf, ev = .logN buf := by
  induction n generalizing iov written with
  | zero => exact absurd h (by simp [writevLoop])
  | succ n ih =>
      simp only [writevLoop, Served.events_after, write, List.mem_append,
        List.mem_singleton] at h
      rcases h with rfl | h
      · exact ⟨_, rfl⟩
      · exact ih h

theorem mem_vmmMmapLogs {σ : Vmm} {physical pages start : ℕ} {k : Bool} {ev : Event}
    (h : ev ∈ vmmMmapLogs σ physical pages start k) :
    ∃ fmt args, ev = .log fmt args ∧ Short (bytes fmt) := by
  simp only [vmmMmapLogs] at h
  split at h
  · split at h
    · exact ⟨_, _, List.mem_singleton.mp h, short_ofList (by decide +kernel)⟩
    · exact ⟨_, _, List.mem_singleton.mp h, short_ofList (by decide +kernel)⟩
  · rcases List.mem_cons.mp h with h | h
    · split at h
      · exact ⟨_, _, h, short_ofList (by decide +kernel)⟩
      · exact ⟨_, _, h, short_ofList (by decide +kernel)⟩
    · exact ⟨_, _, List.mem_singleton.mp h, short_ofList (by decide +kernel)⟩

theorem mem_mapPages {kmalloc : KMalloc} {physical pages : ℕ} {offset : Word} {σ : Vmm} {ev : Event}
    (h : ev ∈ (mapPages P kmalloc physical pages offset σ).events) :
    ∃ fmt args, ev = .log fmt args ∧ Short (bytes fmt) := by
  rw [mapPages] at h
  split at h
  · exact absurd h (by simp)
  · exact mem_vmmMmapLogs h

theorem mem_mmap {kmalloc : KMalloc} {addr length offset : Word} {fd : BitVec 32} {σ : Vmm}
    {ev : Event} (h : ev ∈ (mmap vbe P kmalloc addr length fd offset σ).events) :
    ∃ fmt args, ev = .log fmt args ∧ Short (bytes fmt) := by
  simp only [mmap] at h
  split at h
  · exact mem_mapPages P h
  split at h
  · exact ⟨_, _, List.mem_singleton.mp h, short_ofList (by decide +kernel)⟩
  split at h
  · exact ⟨_, _, List.mem_singleton.mp h, short_ofList (by decide +kernel)⟩
  split at h
  · exact mem_mapPages P h
  · exact absurd h (by simp)

/-- Every event of a system call is one of those. -/
theorem emits_of_mem {kmalloc : KMalloc} {a b c d e f n : Word} {σ : Vmm} {ev : Event}
    (h : ev ∈ (handleSyscall m vbe P kmalloc a b c d e f n σ).events) :
    Emits m vbe P σ.paging a b c n ev := by
  have numbers : (∃ fmt args, ev = .log fmt args ∧ Short (bytes fmt)) → Emits m vbe P σ.paging a b c n ev := by
    rintro ⟨fmt, args, rfl, hshort⟩
    exact .short fmt args hshort
  rw [handleSyscall] at h
  split at h
  · rcases List.mem_cons.mp h with rfl | h
    · exact .short _ _ (short_ofList (by decide +kernel))
    · rw [List.mem_singleton.mp h]
      exact .text _
  split at h
  · rename_i hn
    rcases List.mem_cons.mp h with rfl | h
    · exact .short _ _ (short_ofList (by decide +kernel))
    · simp only [Served.events_map, ioctl] at h
      split at h
      · split at h
        · rename_i hreq hmapped
          rw [List.mem_singleton.mp h]
          refine .store hn hreq fun i hi => ?_
          exact List.all_eq_true.mp hmapped i (List.mem_range.mpr hi)
        · exact absurd h (by simp)
      · rw [List.mem_singleton.mp h]
        exact .short _ _ (short_ofList (by decide +kernel))
  split at h
  · rcases List.mem_cons.mp h with rfl | h
    · exact .short _ _ (short_ofList (by decide +kernel))
    · obtain ⟨buf, rfl⟩ := mem_writevLoop m h
      exact .text buf
  split at h
  · rename_i hn
    rcases List.mem_cons.mp h with rfl | h
    · exact .path hn
    · simp only [Served.events_map, openPath] at h
      split at h
      · rename_i hne
        rw [List.mem_singleton.mp h]
        exact .refusal hn hne
      · exact absurd h (by simp)
  split at h
  · rcases List.mem_cons.mp h with rfl | h
    · exact .short _ _ (short_ofList (by decide +kernel))
    · exact numbers (mem_mmap vbe P h)
  split at h
  · rw [List.mem_singleton.mp h]
    exact .short _ _ (short_ofList (by decide +kernel))
  · rw [List.mem_singleton.mp h]
    exact .short _ _ (short_ofList (by decide +kernel))

end Events

/-! ## The buffer of `log` -/

section Buffer
variable {m : ByteMemory} {a : Word}

/-- Both messages of `open` fit exactly if the second does, which adds 42 bytes to the path
name. -/
theorem fits_path : Fits m "SYSCALL: [open] %s\n" [a] ↔ (stringAt m a).length ≤ 494 := by
  have hq : Quotes 16 1 (bytes "SYSCALL: [open] %s\n") := quotes_ofList (by decide +kernel)
  rw [hq.fits_iff]
  omega

theorem fits_refusal : Fits m "open: pathname must be \"/dev/mem\", got \"%s\"\n" [a] ↔
    (stringAt m a).length ≤ 469 := by
  have hq : Quotes 40 2 (bytes "open: pathname must be \"/dev/mem\", got \"%s\"\n") :=
    quotes_ofList (by decide +kernel)
  rw [hq.fits_iff]
  omega

/-- The events of a call of `open`. -/
theorem events_open (m : ByteMemory) (vbe : VbeInfo) (P : Platform) (kmalloc : KMalloc)
    (a b c d e f : Word) (σ : Vmm) :
    (handleSyscall m vbe P kmalloc a b c d e f nrOpen σ).events =
      .log "SYSCALL: [open] %s\n" [a] :: (openPath m a).events := by
  rw [handleSyscall, if_neg (by decide), if_neg (by decide), if_neg (by decide), if_pos rfl]
  rfl

/-- A path name other than the expected one is quoted in the answer. -/
theorem refusal_mem (h : stringAt m a ≠ bytes "/dev/mem") :
    .log "open: pathname must be \"/dev/mem\", got \"%s\"\n" [a] ∈ (openPath m a).events := by
  have hpath : ∀ c ∈ bytes "/dev/mem", c ≠ 0 := by decide +kernel
  have hne : strcmp (stringAt m a) (bytes "/dev/mem") ≠ 0 := fun h₀ =>
    h (eq_of_strcmp (fun c hc => ne_zero_of_mem_stringUpTo hc) hpath h₀)
  rw [openPath, if_pos hne]
  exact List.mem_singleton_self _

end Buffer

/-- If the messages of `open` fit, the path name is short. -/
theorem length_le_of_fits {m : ByteMemory} {vbe : VbeInfo} {P : Platform} {kmalloc : KMalloc}
    {a b c d e f : Word} {σ : Vmm}
    (h : ∀ fmt args, .log fmt args ∈ (handleSyscall m vbe P kmalloc a b c d e f nrOpen σ).events →
      Fits m fmt args) : (stringAt m a).length ≤ 469 := by
  by_cases hpath : stringAt m a = bytes "/dev/mem"
  · rw [hpath]
    decide
  · apply fits_refusal.mp
    apply h
    rw [events_open]
    exact List.mem_cons_of_mem _ (refusal_mem hpath)

/-- **The messages of a system call.** All texts that `log` formats during a call fit into
its buffer, terminator included, exactly when the call is not `open` or its path name has
at most 469 bytes. -/
theorem log_fits_iff (L : Set Word) (m : ByteMemory) (vbe : VbeInfo) (P : Platform)
    (kmalloc : KMalloc) (a b c d e f n : Word) (σ : Vmm) :
    (∀ m', LogsInto L m m' → ∀ fmt args,
      .log fmt args ∈ (handleSyscall m' vbe P kmalloc a b c d e f n σ).events →
        Fits m' fmt args) ↔ (n = nrOpen → ShortPath L m a) := by
  constructor
  · rintro h rfl m' hm'
    exact length_le_of_fits (h m' hm')
  · intro h m' hm' fmt args hmem
    cases emits_of_mem m' vbe P hmem with
    | short _ _ hshort => exact hshort.fits m' args
    | path hn =>
        have := h hn m' hm'
        exact fits_path.mpr (by omega)
    | refusal hn _ => exact fits_refusal.mpr (h hn m' hm')

/-- A path name of 470 bytes. -/
def longPath : ByteMemory := fun x => if x.toNat < 470 then 0x61#8 else 0

/-- The path name and its terminator, at the addresses up to 470, are not written to. -/
theorem log_overruns : longPath 470 = 0 ∧ ∀ m', LogsInto {x | 470 < x.toNat} longPath m' →
    ¬ ∀ fmt args, .log fmt args ∈ (handleSyscall m' VbeInfo.sample
        Boot.sample.platform (fun σ => .ok (0, σ)) 0 0 0 0 0 0 nrOpen
        (Vmm.initial Boot.sample.paging)).events → Fits m' fmt args := by
  refine ⟨by decide, fun m' hm' h => ?_⟩
  have hlen : 470 ≤ (stringAt m' 0).length := by
    apply le_length_stringUpTo (by decide)
    intro i hi
    have hlt : (0 + BitVec.ofNat 64 i).toNat < 470 := by
      rw [show (0 : Word) + BitVec.ofNat 64 i = BitVec.ofNat 64 i from BitVec.zero_add _,
        BitVec.toNat_ofNat]
      omega
    have hkept : m' (0 + BitVec.ofNat 64 i) = longPath (0 + BitVec.ofNat 64 i) :=
      hm' (not_lt.mpr hlt.le)
    rw [hkept, longPath, if_pos hlt]
    decide
  have := length_le_of_fits h
  omega

/-! ## Stores -/

/-- An event changes no memory other than the state of the terminal, the buffer of `log`
and pages that ring 3 can access. -/
def Confined (m : ByteMemory) (P : Platform) (σ : Paging) : Event → Prop
  | .log fmt args => Fits m fmt args
  | .logN _ => True
  | .store addr value => ∀ i < value.length, σ.accessible P (addr + BitVec.ofNat 64 i) = true

/-- The store of `ioctl`. -/
theorem store_mem {m : ByteMemory} {vbe : VbeInfo} {P : Platform} {kmalloc : KMalloc}
    {a b c d e f : Word} {σ : Vmm} (hreq : b.setWidth 32 = 0x5413)
    (hmapped : ∀ i < 8, σ.paging.storable P (c + BitVec.ofNat 64 i) = true) :
    .store c (winsize vbe.yCurMax vbe.xCurMax vbe.width vbe.height) ∈
      (handleSyscall m vbe P kmalloc a b c d e f nrIoctl σ).events := by
  have hall : ((List.range 8).all fun i => σ.paging.storable P (c + BitVec.ofNat 64 i)) = true :=
    List.all_eq_true.mpr fun i hi => hmapped i (List.mem_range.mp hi)
  rw [handleSyscall, if_neg (by decide), if_pos rfl, ioctl, if_pos hreq, if_pos hall]
  exact List.mem_cons_of_mem _ (List.mem_singleton_self _)

/-- **What a system call may write to.** A call changes only memory of its own and pages
open to ring 3 exactly when

* as an `ioctl` for the window size, its pointer leads to pages open to ring 3, or to a
  page that cannot be written at all, so that the store traps;
* as an `open`, its path name has at most 469 bytes. -/
theorem confined_iff (L : Set Word) (m : ByteMemory) (vbe : VbeInfo) (P : Platform)
    (kmalloc : KMalloc) (a b c d e f n : Word) (σ : Vmm) :
    (∀ m', LogsInto L m m' → ∀ ev ∈ (handleSyscall m' vbe P kmalloc a b c d e f n σ).events,
      Confined m' P σ.paging ev) ↔
    (n = nrIoctl → b.setWidth 32 = 0x5413 →
      (∀ i < 8, σ.paging.storable P (c + BitVec.ofNat 64 i) = true) →
        ∀ i < 8, σ.paging.accessible P (c + BitVec.ofNat 64 i) = true) ∧
    (n = nrOpen → ShortPath L m a) := by
  constructor
  · intro h
    constructor
    · rintro rfl hreq hmapped
      exact h m (.refl L m) _ (store_mem hreq hmapped)
    · rintro rfl m' hm'
      exact length_le_of_fits fun fmt args hmem => h m' hm' (.log fmt args) hmem
  · rintro ⟨hioctl, hopen⟩ m' hm' ev hmem
    cases emits_of_mem m' vbe P hmem with
    | short fmt args hshort => exact hshort.fits m' args
    | text buf => trivial
    | path hn =>
        have := hopen hn m' hm'
        exact fits_path.mpr (by omega)
    | refusal hn _ => exact fits_refusal.mpr (hopen hn m' hm')
    | store hn hreq hmapped => exact hioctl hn hreq hmapped

/-- The sample image with the rights of its sections. -/
def samplePermitted : Paging :=
  Boot.sample.paging.vmmSetPagePermissions Boot.sample.platform Layout.sample

/-- A page of `KERNEL_BSS` in the sample. -/
theorem samplePermitted_bss {v : ℕ} (hge : 0x10000 ≤ v) (hlt : v < 0x11000) :
    (samplePermitted.translate Boot.sample.platform v).isSome = true ∧
      samplePermitted.rights Boot.sample.platform v = ⟨false, true, false⟩ := by
  have hlow : LowMap Boot.sample.platform Boot.sample.paging :=
    ⟨Boot.sample.wellFormed, (identity_boot Boot.sample).low⟩
  have hv : v < heapStart := by
    simp only [heapStart]
    omega
  have hin : Layout.sample.InSection .kernelBss (v / pageSize) := by
    simp only [Layout.InSection, Occupies, Layout.sample, pageSize]
    omega
  rw [samplePermitted, Layout.vmmSetPagePermissions_eq, Layout.rights_permissionCalls hlow hv,
    Layout.entryRights_section hlow hv (by decide) hin,
    (hlow.foldl fun c hc => Layout.permissionCalls_low hc).low v hv]
  exact ⟨rfl, rfl⟩

/-- The window size, stored over the first page table. -/
theorem ioctl_clobbers :
    ¬ ∀ ev ∈ (handleSyscall (fun _ => 0) VbeInfo.sample Boot.sample.platform
        (fun σ => .ok (0, σ)) 1 0x5413 0x10000 0 0 0 nrIoctl (Vmm.initial samplePermitted)).events,
      Confined (fun _ => 0) Boot.sample.platform samplePermitted ev := by
  have hbyte : ∀ i < 8, ((0x10000 : Word) + BitVec.ofNat 64 i).toNat = 0x10000 + i := by
    decide
  have hmapped : ∀ i < 8, samplePermitted.storable Boot.sample.platform
      ((0x10000 : Word) + BitVec.ofNat 64 i) = true := by
    intro i hi
    obtain ⟨hsome, hrights⟩ := samplePermitted_bss (v := 0x10000 + i) (by omega) (by omega)
    rw [storable, canonical_of_lt (by rw [hbyte i hi]; omega), hbyte i hi, hsome, hrights]
    rfl
  intro h
  have hacc : samplePermitted.accessible Boot.sample.platform (0x10000 + BitVec.ofNat 64 0) = true :=
    h _ (store_mem (by decide) hmapped) 0 (by decide)
  have huser := rights_user (Bool.and_eq_true_iff.mp hacc).2
  rw [hbyte 0 (by decide), (samplePermitted_bss (by decide) (by decide)).2] at huser
  exact absurd huser (by decide)

end Syscalls
end BootableKernel
