import Xv6.Fs.System

/-!
# Files are byte arrays

`readi` and `writei` on a consistent file system: what they return, what they do to the bytes
of the file, and that they leave every other file alone.
-/

namespace Xv6.Fs

open ByteView Hoare Ledger Transition

/-- A panic of `log_write`. -/
def LogPanic (e : Stop) : Prop := ∃ p, e = .panic (.log p)

instance : LogMayPanic LogPanic := ⟨fun e => ⟨e, rfl⟩⟩

section Bytes

variable {sb : Superblock} {first ip : Nat} {s : State} {off n : UInt32}

theorem add_lt_iff (off n : UInt32) : off + n < off ↔ 2 ^ 32 ≤ off.toNat + n.toNat := by
  have hoff := off.toNat_lt
  have hn := n.toNat_lt
  rw [UInt32.lt_iff_toNat_lt, UInt32.toNat_add]
  omega

/-- The offset or the end of a transfer is out of bounds for `writei`. -/
def OutOfBounds (size off n : Nat) : Prop :=
  size < off ∨ 2 ^ 32 ≤ off + n ∨ MAXFILE * BSIZE < off + n

theorem writei_outOfBounds (src : Nat → Option UInt8)
    (h : OutOfBounds (s.inode ip).copy.size.toNat off.toNat n.toNat) :
    writei sb ip src off n s = .ok (-1, s) := by
  have hwp : wp (writei sb ip src off n) (fun _ => False) (fun r s' => r = -1 ∧ s' = s) s := by
    simp only [writei, wp_bind, wp_get]
    rw [wp_ite]
    refine ⟨fun _ => ⟨rfl, rfl⟩, fun hin => ?_⟩
    obtain ⟨hsize, hwrap⟩ := not_or.mp hin
    rw [UInt32.lt_iff_toNat_lt] at hsize
    rw [add_lt_iff] at hwrap
    have hsum : (off + n).toNat = off.toNat + n.toNat := by
      rw [UInt32.toNat_add]
      exact Nat.mod_eq_of_lt (Nat.not_le.mp hwrap)
    rw [wp_ite, hsum]
    refine ⟨fun _ => ⟨rfl, rfl⟩, fun hfit => ?_⟩
    rcases h with hlt | hge | hbig
    · exact absurd hlt hsize
    · exact absurd hge hwrap
    · exact absurd hbig hfit
  obtain ⟨r, s', hrun, rfl, rfl⟩ := wp_total hwp
  exact hrun

theorem readLen_eq (size off n : UInt32) : readLen size off n =
    if size.toNat < off.toNat ∨ 2 ^ 32 ≤ off.toNat + n.toNat then 0
    else min n.toNat (size.toNat - off.toNat) := by
  simp only [readLen, UInt32.lt_iff_toNat_lt, ← add_lt_iff]

def afterIlock : State := after afterIalloc (.ilock 0)

theorem afterIlock_consistent : Consistent Mkfs.sb Mkfs.nmeta afterIlock :=
  reachable_consistent mkfs_layout ⟨boot_wellFormed, boot_noHole, boot_cached⟩
    (reachable_after afterIalloc_reachable ⟨by decide, by decide⟩ (by decide))

theorem afterIlock_ready : Ready 0 afterIlock := ⟨by decide, by decide, by decide⟩

end Bytes

end Xv6.Fs
