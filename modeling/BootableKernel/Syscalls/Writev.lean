import BootableKernel.Machine.Vector
import BootableKernel.Syscalls.Results

/-!
# Gathered writes

`writev` writes its buffers one after the other, and each `write` shows the console when
it is done. One `write` of all bytes shows it once. The console is the same in the end:
drawing does not look at the frame buffer, and what was shown before is copied over.
-/

namespace BootableKernel

namespace Screen

variable {m : Mode}

/-- The characters of a text drawn one after the other. -/
def draw (m : Mode) (buf : Text) (σ : Screen) : Screen := buf.foldl (fun σ c => putChar m c σ) σ

theorem logN_eq (buf : Text) (σ : Screen) : logN m buf σ = swapBuffers m (draw m buf σ) := rfl

theorem draw_append (buf buf' : Text) (σ : Screen) :
    draw m (buf ++ buf') σ = draw m buf' (draw m buf σ) :=
  List.foldl_append

theorem draw_withCopy (buf : Text) (σ : Screen) (front : ℕ → Pixel) (xmm : Xmm) :
    draw m buf (σ.withCopy front xmm) = (draw m buf σ).withCopy front xmm :=
  foldl_withCopy (fun c => putChar m c) front xmm (fun c σ => putChar_withCopy c σ front xmm) buf σ

/-- Drawing leaves the frame buffer and the vector registers alone. -/
theorem draw_keeps (buf : Text) (σ : Screen) :
    (draw m buf σ).front = σ.front ∧ (draw m buf σ).xmm = σ.xmm := by
  have h := draw_withCopy (m := m) buf σ σ.front σ.xmm
  have hσ : σ.withCopy σ.front σ.xmm = σ := rfl
  rw [hσ] at h
  rw [h]
  exact ⟨rfl, rfl⟩

theorem front_swapBuffers (σ : Screen) (j : ℕ) :
    (swapBuffers m σ).front j = if j < 32 * (m.fbSize / 128) then σ.back j else σ.front j :=
  dst_kmemcpy128 σ.front σ.back σ.xmm m.fbSize_pos m.fbSize_lt j

theorem xmm_swapBuffers (σ : Screen) (r : Fin 16) :
    (swapBuffers m σ).xmm r =
      if r.val < 8 then movdqa σ.back (32 * (m.fbSize / 128 - 1) + 4 * r.val) else σ.xmm r :=
  xmm_kmemcpy128 σ.front σ.back σ.xmm m.fbSize_pos m.fbSize_lt r

theorem swapBuffers_eq_withCopy (σ : Screen) :
    swapBuffers m σ = σ.withCopy (swapBuffers m σ).front (swapBuffers m σ).xmm := rfl

/-- Showing copies over what was shown before. -/
theorem swapBuffers_withCopy {σ τ : Screen} (hfront : τ.front = σ.front) (hxmm : τ.xmm = σ.xmm) :
    swapBuffers m (τ.withCopy (swapBuffers m σ).front (swapBuffers m σ).xmm) =
      swapBuffers m τ := by
  have hf : (swapBuffers m (τ.withCopy (swapBuffers m σ).front (swapBuffers m σ).xmm)).front =
      (swapBuffers m τ).front := by
    funext j
    rw [front_swapBuffers, front_swapBuffers τ, hfront]
    split
    · rfl
    · rename_i hj
      exact (front_swapBuffers σ j).trans (if_neg hj)
  have hx : (swapBuffers m (τ.withCopy (swapBuffers m σ).front (swapBuffers m σ).xmm)).xmm =
      (swapBuffers m τ).xmm := by
    funext r
    rw [xmm_swapBuffers, xmm_swapBuffers τ, hxmm]
    split
    · rfl
    · rename_i hr
      exact (xmm_swapBuffers σ r).trans (if_neg hr)
  rw [swapBuffers_eq_withCopy, swapBuffers_eq_withCopy τ, hf, hx]
  rfl

/-- Two texts that are shown one after the other. -/
theorem logN_logN (buf buf' : Text) (σ : Screen) :
    logN m buf' (logN m buf σ) = logN m (buf ++ buf') σ := by
  have hkeep := draw_keeps (m := m) buf' (draw m buf σ)
  rw [logN_eq buf, swapBuffers_eq_withCopy, logN_eq, draw_withCopy,
    swapBuffers_withCopy hkeep.1 hkeep.2, logN_eq, draw_append]

/-- Any number of texts. -/
theorem foldl_logN (buf : Text) (bufs : List Text) (σ : Screen) :
    bufs.foldl (fun σ buf => logN m buf σ) (logN m buf σ) = logN m (buf ++ bufs.flatten) σ := by
  induction bufs generalizing buf with
  | nil => rw [List.flatten_nil, List.append_nil, List.foldl_nil]
  | cons buf' bufs ih =>
      rw [List.foldl_cons, logN_logN, ih, List.flatten_cons, List.append_assoc]

end Screen

/-- What an event does to the console. A text ends at its first NUL. -/
def Event.print (mode : Mode) (m : ByteMemory) : Event → Screen → Screen
  | .log fmt args, σ =>
      Screen.log mode (((logText m fmt args).getD []).takeWhile (· ≠ 0)) σ
  | .logN buf, σ => Screen.logN mode buf σ
  | .store _ _, σ => σ

/-- The console after the events of a call. -/
def console (mode : Mode) (m : ByteMemory) (es : List Event) (σ : Screen) : Screen :=
  es.foldl (fun σ e => e.print mode m σ) σ

namespace Syscalls

variable {m : ByteMemory}

/-- The buffers of an `iovec` array. -/
def iovBuffers (m : ByteMemory) : ℕ → Word → List Text
  | 0, _ => []
  | n + 1, iov =>
      blockAt m (ByteMemory.read 64 m iov) (ByteMemory.read 64 m (iov + 8)).toNat ::
        iovBuffers m n (iov + 16)

theorem length_blockAt (m : ByteMemory) (a : Word) (n : ℕ) : (blockAt m a n).length = n := by
  rw [blockAt, List.length_map, List.length_range]

theorem length_iovBuffers (m : ByteMemory) (n : ℕ) (iov : Word) :
    (iovBuffers m n iov).flatten.length = (iovLengths m n iov).sum := by
  induction n generalizing iov with
  | zero => rfl
  | succ n ih =>
      rw [iovBuffers, iovLengths, List.flatten_cons, List.length_append, List.sum_cons, ih,
        length_blockAt]

theorem events_writevLoop (m : ByteMemory) (n : ℕ) (iov : Word) (written : BitVec 32) :
    (writevLoop m n iov written).events = (iovBuffers m n iov).map .logN := by
  induction n generalizing iov written with
  | zero => rfl
  | succ n ih => rw [writevLoop, Served.events_after, ih, iovBuffers, List.map_cons]; rfl

/-- The console after some texts, the first of them `buf`. -/
theorem console_logN (mode : Mode) (m : ByteMemory) (buf : Text) (bufs : List Text)
    (σ : Screen) :
    console mode m ((buf :: bufs).map .logN) σ = Screen.logN mode (buf ++ bufs.flatten) σ := by
  rw [console, List.map_cons, List.foldl_cons, List.foldl_map]
  exact Screen.foldl_logN buf bufs σ

/-- `writev` of at least one buffer leaves the console as one `write` of all the bytes does,
and if the number of bytes fits an `int`, both return it. -/
theorem writev_eq_write (mode : Mode) (σ : Screen) (m m' : ByteMemory) (iov : Word)
    (iovcnt : BitVec 32) (buf count : Word) (hcnt : 0 < iovcnt.toInt)
    (hbuf : blockAt m' buf count.toNat = (iovBuffers m iovcnt.toInt.toNat iov).flatten) :
    console mode m (writev m iov iovcnt).events σ = console mode m' (write m' buf count).events σ ∧
      ((iovBuffers m iovcnt.toInt.toNat iov).flatten.length < 2 ^ 31 →
        ∃ r s, (writev m iov iovcnt).result = .ok r ∧ (write m' buf count).result = .ok s ∧
          r.toInt = (iovBuffers m iovcnt.toInt.toNat iov).flatten.length ∧
          s.toInt = (iovBuffers m iovcnt.toInt.toNat iov).flatten.length) := by
  obtain ⟨n, hn⟩ : ∃ n, iovcnt.toInt.toNat = n + 1 := ⟨iovcnt.toInt.toNat - 1, by omega⟩
  constructor
  · rw [writev, events_writevLoop, hn, iovBuffers, console_logN]
    rw [hn, iovBuffers, List.flatten_cons] at hbuf
    rw [← hbuf]
    rfl
  · intro hlt
    have hcount : count.toNat = (iovBuffers m iovcnt.toInt.toNat iov).flatten.length := by
      rw [← hbuf, length_blockAt]
    have hint := (toInt_ofNat32_eq_iff _).mpr hlt
    refine ⟨_, _, writevLoop_result m _ iov 0, rfl, ?_, ?_⟩
    · rw [← length_iovBuffers]
      exact (congrArg BitVec.toInt (BitVec.zero_add _)).trans hint
    · rw [← BitVec.ofNat_toNat, hcount]
      exact hint

/-- Two buffers next to each other: `"ab"` at `0x2000` and a newline after it. -/
def twoBuffers : ByteMemory :=
  let m : ByteMemory := fun _ => 0
  let m := m.write 0x1000 (0x2000 : Word)
  let m := m.write 0x1008 (2 : Word)
  let m := m.write 0x1010 (0x2002 : Word)
  let m := m.write 0x1018 (1 : Word)
  m.write 0x2000 (0x0a6261 : BitVec 24)

theorem writev_eq_write_twoBuffers :
    (iovBuffers twoBuffers 2 0x1000).flatten = [0x61, 0x62, 0x0a] ∧
      ∀ σ, console .boot twoBuffers (writev twoBuffers 0x1000 2).events σ =
        console .boot twoBuffers (write twoBuffers 0x2000 3).events σ := by
  have htext : (iovBuffers twoBuffers 2 0x1000).flatten = [0x61, 0x62, 0x0a] := by
    decide +kernel
  have hbuf : blockAt twoBuffers 0x2000 3 = [0x61, 0x62, 0x0a] := by decide +kernel
  refine ⟨htext, fun σ => ?_⟩
  exact (writev_eq_write .boot σ twoBuffers twoBuffers 0x1000 2 0x2000 3 (by decide)
    (hbuf.trans htext.symm)).1

end Syscalls
end BootableKernel
