import Mathlib.Data.List.TakeWhile
import Xv6.Fs.Consistency

/-!
# `writei` and `itrunc`

Both take a consistent state to a consistent state, however far they get: `writei` may
stop for want of a block or at a bad source address, and records in the inode every block
that it has allocated.
-/

namespace Xv6.Fs

open ByteView Hoare Ledger Function

section Write

variable {sb : Superblock} {first ip : Nat} {D : Nat → Dinode} {s s' : State}

/-- A data block of a file is written: it is nobody's indirect block. -/
theorem Running.writeData {loose : List Nat} (hL : Layout sb first)
    (h : Running sb first D ip s loose) {p : Nat × Slot} {b : Nat}
    (hp : owns sb D ip s p = some b) (hslot : p.2 ≠ .indirect) (v : Block) (l : Log.LogState) :
    Running sb first D ip { s with disk := update s.disk b v, log := l } loose ∧
      Grown sb D ip s { s with disk := update s.disk b v, log := l } := by
  have hdata := h.owned_data hp
  obtain ⟨hrun, hown⟩ := h.congr_disk hL
    { s with disk := update s.disk b v, log := l } rfl
    (fun c hc => update_of_ne (by omega) _ _)
    (fun i c hc => update_of_ne (fun heq => hslot (by
      rw [heq] at hc
      rw [← h.books.exact.once _ _ _ hc hp])) _ _)
  have hlow : ∀ c < sb.bmapstart, update s.disk b v c = s.disk c := fun c hc =>
    update_of_ne (by have := hL.bmapstart_lt; omega) _ _
  exact ⟨hrun, ⟨fun _ _ => rfl, ⟨_, rfl⟩, fun p _ => hown p, hlow⟩,
    fun p c hc => by rw [hown p, hc]⟩

theorem readable_some (data : Nat → UInt8) (tot m : Nat) :
    readable (fun k => some (data k)) tot m = m := by
  have hall : (List.range m).takeWhile (fun k => (some (data (tot + k))).isSome) = List.range m :=
    List.takeWhile_eq_self_iff.mpr fun _ _ => rfl
  rw [readable, hall, List.length_range]

theorem copyIn_some (blk : Block) (o : Nat) (data : Nat → UInt8) (tot m i : Nat) :
    copyIn blk o (fun k => some (data k)) tot m i =
      if o ≤ i ∧ i < o + m then data (tot + (i - o)) else blk i := by
  rw [copyIn, readable_some]
  rfl

/-- The file of `ip` has the bytes `data` from `off` on, `tot` of them, and the other blocks are
    as in `s`. -/
structure Written (sb : Superblock) (D : Nat → Dinode) (ip off : Nat) (data : Nat → UInt8)
    (s : State) (tot : Nat) (t : State) : Prop where
  inside : ∀ k, off ≤ k → k < off + tot → (t.inode ip).copy.fileByte t.disk k = data (k - off)
  outside : ∀ k, (s.inode ip).copy.fileBlock s.disk (k / BSIZE) ≠ 0 → ¬ (off ≤ k ∧ k < off + tot) →
    (t.inode ip).copy.fileByte t.disk k = (s.inode ip).copy.fileByte s.disk k
  elsewhere : ∀ p b, owns sb D ip s p = some b → p.1 ≠ (s.inode ip).inum → t.disk b = s.disk b

variable {off tot : Nat} {data : Nat → UInt8} {t t' : State} {E : Stop → Prop}

theorem Written.zero : Written sb D ip off data s 0 s :=
  ⟨fun _ hlo hhi => absurd hhi (by omega), fun _ _ _ => rfl, fun _ _ _ _ => rfl⟩

theorem Mapped.fileByte_eq (hm : Mapped sb D ip s s') (h : Running sb first D ip s [])
    (h' : Running sb first D ip s' []) {k : Nat}
    (hb : (s.inode ip).copy.fileBlock s.disk (k / BSIZE) ≠ 0) :
    (s'.inode ip).copy.fileByte s'.disk k = (s.inode ip).copy.fileByte s.disk k := by
  unfold Dinode.fileByte
  have hne := slotOf_ne_indirect (Dinode.lt_of_fileBlock hb)
  rw [hm.toGrown.fileBlock_eq h h' hb,
    hm.data _ _ (owns_fileBlock h hb) fun heq => hne (congrArg Prod.snd heq)]

theorem Written.mapped (hw : Written sb D ip off data s tot t) (hs : Running sb first D ip s [])
    (ht : Running sb first D ip t []) (hg : Grown sb D ip s t) (hm : Mapped sb D ip t t')
    (ht' : Running sb first D ip t' [])
    (hfull : ∀ k, off ≤ k → k < off + tot → (t.inode ip).copy.fileBlock t.disk (k / BSIZE) ≠ 0) :
    Written sb D ip off data s tot t' := by
  refine ⟨fun k hlo hhi => ?_, fun k hb hout => ?_, fun p b hp hne => ?_⟩
  · rw [hm.fileByte_eq ht ht' (hfull k hlo hhi)]
    exact hw.inside k hlo hhi
  · rw [hm.fileByte_eq ht ht' (hg.fileBlock_ne_zero hs ht hb)]
    exact hw.outside k hb hout
  · have hne' : p ≠ ((t.inode ip).inum, .indirect) := fun heq => hne (by rw [heq, hg.inum])
    rw [hm.data p b (hg.kept p b hp) hne']
    exact hw.elsewhere p b hp hne

theorem Written.write (hw : Written sb D ip off data s tot t) (hs : Running sb first D ip s [])
    (ht : Running sb first D ip t []) (hg : Grown sb D ip s t) {m : Nat}
    (hm : (off + tot) % BSIZE + m ≤ BSIZE)
    (hb : (t.inode ip).copy.fileBlock t.disk ((off + tot) / BSIZE) ≠ 0)
    (ht' : Running sb first D ip t' []) (hg' : Grown sb D ip t t')
    (hdisk : t'.disk =
      update t.disk ((t.inode ip).copy.fileBlock t.disk ((off + tot) / BSIZE))
        (copyIn (t.disk ((t.inode ip).copy.fileBlock t.disk ((off + tot) / BSIZE)))
          ((off + tot) % BSIZE) (fun k => some (data k)) tot m))
    (hfull : ∀ k, off ≤ k → k < off + tot → (t.inode ip).copy.fileBlock t.disk (k / BSIZE) ≠ 0) :
    Written sb D ip off data s (tot + m) t' := by
  have hown := owns_fileBlock ht hb
  have hbyte : ∀ k, (t.inode ip).copy.fileBlock t.disk (k / BSIZE) ≠ 0 →
      (t'.inode ip).copy.fileByte t'.disk k = if off + tot ≤ k ∧ k < off + tot + m then
        data (k - off) else (t.inode ip).copy.fileByte t.disk k := by
    intro k hk
    unfold Dinode.fileByte
    rw [hg'.fileBlock_eq ht ht' hk]
    have hdiv := Nat.div_add_mod' k BSIZE
    have hdivo := Nat.div_add_mod' (off + tot) BSIZE
    have hmod := Nat.mod_lt k (show 0 < BSIZE by decide)
    by_cases hsame : k / BSIZE = (off + tot) / BSIZE
    · rw [hsame, hdisk, update_self, copyIn_some]
      rw [hsame] at hdiv
      generalize (off + tot) / BSIZE * BSIZE = q at hdiv hdivo
      by_cases hin : off + tot ≤ k ∧ k < off + tot + m
      · rw [if_pos hin, if_pos (by omega)]
        congr 1
        omega
      · rw [if_neg hin, if_neg (by omega)]
    · have hout : ¬ (off + tot ≤ k ∧ k < off + tot + m) := fun ⟨hlo, hhi⟩ => hsame (by
        refine Nat.div_eq_of_lt_le ?_ ?_
        · exact Nat.le_trans (Nat.div_mul_le_self _ _) hlo
        · rw [Nat.add_mul, Nat.one_mul]
          omega)
      have hne : (t.inode ip).copy.fileBlock t.disk (k / BSIZE) ≠
          (t.inode ip).copy.fileBlock t.disk ((off + tot) / BSIZE) := fun heq => by
        have honce := ht.books.exact.once _ _ _ (owns_fileBlock ht hk) (heq ▸ hown)
        exact hsame (slotOf_inj (Dinode.lt_of_fileBlock hk) (Dinode.lt_of_fileBlock hb)
          (congrArg Prod.snd honce))
      rw [if_neg hout, hdisk, update_of_ne hne]
  refine ⟨fun k hlo hhi => ?_, fun k hk hout => ?_, fun p b hp hne => ?_⟩
  · by_cases hlt : k < off + tot
    · rw [hbyte k (hfull k hlo hlt), if_neg (by omega)]
      exact hw.inside k hlo hlt
    · rw [hbyte k, if_pos (by omega)]
      have hsame : k / BSIZE = (off + tot) / BSIZE := by
        have hdivo := Nat.div_add_mod' (off + tot) BSIZE
        refine Nat.div_eq_of_lt_le ?_ ?_
        · exact Nat.le_trans (Nat.div_mul_le_self _ _) (Nat.not_lt.mp hlt)
        · rw [Nat.add_mul, Nat.one_mul]
          omega
      rw [hsame]
      exact hb
  · rw [hbyte k (hg.fileBlock_ne_zero hs ht hk), if_neg (by omega)]
    exact hw.outside k hk (by omega)
  · have hbne : b ≠ (t.inode ip).copy.fileBlock t.disk ((off + tot) / BSIZE) := fun heq => by
      have honce := ht.books.exact.once _ _ _ (hg.kept p b hp) (heq ▸ hown)
      exact hne (by rw [honce, hg.inum])
    rw [hdisk]
    exact (update_of_ne hbne ..).trans (hw.elsewhere p b hp hne)

/-- **The loop of `writei`**, from an offset below which the file has no hole: none is left
    below the offset that it reaches.  If no address is bad, all of the source up to there is in
    the file, and the loop ends early for want of a block only. -/
theorem wp_writeLoop [LogMayPanic E] (hL : Layout sb first) (h : Running sb first D ip s [])
    (src : Nat → Option UInt8) {off n : UInt32} (hfit : off.toNat + n.toNat ≤ MAXFILE * BSIZE)
    (hfilled : ∀ bn, bn * BSIZE < off.toNat → (s.inode ip).copy.fileBlock s.disk bn ≠ 0) :
    wp (loop (writeBody sb ip src n) (n.toNat + 1) ⟨0, off⟩) E (fun v s' =>
      Running sb first D ip s' [] ∧ Grown sb D ip s s' ∧
      (∀ bn, bn * BSIZE < v.off.toNat → (s'.inode ip).copy.fileBlock s'.disk bn ≠ 0) ∧
      v.tot ≤ n ∧ v.off.toNat = off.toNat + v.tot.toNat ∧
      ∀ data, src = (fun k => some (data k)) →
        Written sb D ip off.toNat data s v.tot.toNat s' ∧
        (v.tot < n → (v.tot = 0 ∨ v.off.toNat % BSIZE = 0) ∧
          (s.inode ip).copy.fileBlock s.disk (v.off.toNat / BSIZE) = 0 ∧ Starved sb s s')) s := by
  refine wp_loop (I := fun v t => Running sb first D ip t [] ∧ Grown sb D ip s t ∧
      (∀ bn, bn * BSIZE < v.off.toNat → (t.inode ip).copy.fileBlock t.disk bn ≠ 0) ∧
      v.tot ≤ n ∧ v.off.toNat = off.toNat + v.tot.toNat ∧
      (v.tot < n → v.tot = 0 ∨ v.off.toNat % BSIZE = 0) ∧ Counted s t ∧
      ∀ data, src = (fun k => some (data k)) → Written sb D ip off.toNat data s v.tot.toNat t)
    (fun v => n.toNat - v.tot.toNat)
    ⟨h, Grown.refl, hfilled, ?_, by simp, fun _ => Or.inl rfl, Counted.refl,
      fun _ _ => Written.zero⟩
    (Nat.lt_succ_of_le (Nat.sub_le _ _)) ?_
  · rw [UInt32.le_iff_toNat_le]
    exact Nat.zero_le _
  rintro v t ⟨hrun, hgrown, hfull, htot, hoff, hbound, hcount, hwritten⟩
  unfold writeBody
  split
  · rename_i hlt
    have hlt' := UInt32.lt_iff_toNat_lt.mp hlt
    have hbn : v.off.toNat / BSIZE < MAXFILE := Nat.div_lt_of_lt_mul (by
      rw [Nat.mul_comm]
      omega)
    rw [wp_bind]
    refine wp_mono (wp_bmap hL hrun hbn) fun a t₁ ⟨hrun₁, hmapped₁, haddr, hnone⟩ => ?_
    have hfull₁ : ∀ bn, bn * BSIZE < v.off.toNat →
        (t₁.inode ip).copy.fileBlock t₁.disk bn ≠ 0 :=
      fun bn hlt => hmapped₁.toGrown.fileBlock_ne_zero hrun hrun₁ (hfull bn hlt)
    have hgrown₁ := hgrown.trans hmapped₁.toGrown
    have hcount₁ := hcount.trans hmapped₁.toCounted
    -- the bytes that are written lie below the offset
    have hbelow : ∀ k, off.toNat ≤ k → k < off.toNat + v.tot.toNat →
        k / BSIZE * BSIZE < v.off.toNat := fun k _ hhi => by
      have := Nat.div_mul_le_self k BSIZE
      omega
    have hwritten₁ : ∀ data, src = (fun k => some (data k)) →
        Written sb D ip off.toNat data s v.tot.toNat t₁ := fun data hsrc =>
      (hwritten data hsrc).mapped h hrun hgrown hmapped₁ hrun₁
        fun k hlo hhi => hfull _ (hbelow k hlo hhi)
    by_cases ha : a = 0
    · rw [if_pos ha, wp_pure]
      refine ⟨fun h => absurd h (by simp), fun _ => ⟨hrun₁, hgrown₁, hfull₁, htot, hoff,
        fun data hsrc => ⟨hwritten₁ data hsrc, fun hlt =>
          ⟨hbound hlt, ?_, (hnone ha).2.after hcount⟩⟩⟩⟩
      by_contra hfound
      exact hgrown.fileBlock_ne_zero h hrun hfound (hnone ha).1
    have hm := chunk_toNat v.off (UInt32.le_of_lt hlt)
    have hfound : (t₁.inode ip).copy.fileBlock t₁.disk (v.off.toNat / BSIZE) = a.toNat ∧
        a.toNat ≠ 0 := by
      have hslot := haddr ha
      rwa [owns_slotOf hrun₁ hbn, nonzero_eq_some] at hslot
    have hfound₁ : (t₁.inode ip).copy.fileBlock t₁.disk (v.off.toNat / BSIZE) ≠ 0 := by
      rw [hfound.1]
      exact hfound.2
    simp only [if_neg ha, wp_bind, bread, wp_get, wp_pure]
    generalize chunk n v.tot v.off = m at hm ⊢
    generalize hblk : copyIn (t₁.disk a.toNat) (v.off.toNat % BSIZE) src v.tot.toNat m.toNat = blk
    refine wp_logWrite fun l => ?_
    obtain ⟨hrun₂, hgrown₂⟩ := hrun₁.writeData hL (haddr ha) (slotOf_ne_indirect hbn) blk l
    have hgrown' := hgrown₁.trans hgrown₂
    have hfull₂ := fun bn hlt => hgrown₂.fileBlock_ne_zero hrun₁ hrun₂ (hfull₁ bn hlt)
    split
    · rename_i hbad
      refine ⟨fun h => absurd h (by simp), fun _ => ⟨hrun₂, hgrown', hfull₂, htot, hoff,
        fun data hsrc => absurd hbad ?_⟩⟩
      rw [hsrc, readable_some]
      exact Nat.lt_irrefl _
    · have hmod := Nat.mod_lt v.off.toNat (show 0 < BSIZE by decide)
      have hhere := hgrown₂.fileBlock_ne_zero hrun₁ hrun₂ hfound₁
      have hnlt := n.toNat_lt
      have hmax : MAXFILE * BSIZE < 2 ^ 32 := by decide
      have htotm : (v.tot + m).toNat = v.tot.toNat + m.toNat := by
        rw [UInt32.toNat_add]
        exact Nat.mod_eq_of_lt (by omega)
      have hoffm : (v.off + m).toNat = v.off.toNat + m.toNat := by
        rw [UInt32.toNat_add]
        exact Nat.mod_eq_of_lt (by omega)
      refine ⟨fun _ => ⟨⟨hrun₂, hgrown', fun bn hbn' => ?_, ?_, ?_, fun hmore => Or.inr ?_,
        ⟨hcount₁.outOfBlocks, hcount₁.ballocs⟩, fun data hsrc => ?_⟩, ?_⟩,
        fun h => absurd h (by simp)⟩
      · -- the new bytes lie in one block
        by_cases hold : bn * BSIZE < v.off.toNat
        · exact hfull₂ bn hold
        · have hbn_eq : bn = v.off.toNat / BSIZE := by
            dsimp only at hbn'
            rw [hoffm] at hbn'
            have hdiv := Nat.div_add_mod' v.off.toNat BSIZE
            generalize v.off.toNat / BSIZE = q at *
            generalize v.off.toNat % BSIZE = r at *
            rw [show BSIZE = 1024 from rfl] at *
            omega
          rw [hbn_eq]
          exact hhere
      · rw [UInt32.le_iff_toNat_le, htotm]
        omega
      · rw [htotm, hoffm]
        omega
      · -- a part of the transfer that is not the last ends with its block
        rw [UInt32.lt_iff_toNat_lt, htotm] at hmore
        rw [hoffm, hm, Nat.min_eq_right (by omega)]
        have hdiv := Nat.div_add_mod' v.off.toNat BSIZE
        have hend : v.off.toNat + (BSIZE - v.off.toNat % BSIZE) =
            (v.off.toNat / BSIZE + 1) * BSIZE := by
          rw [Nat.add_mul, Nat.one_mul]
          omega
        rw [hend, Nat.mul_mod_left]
      · rw [htotm]
        rw [hoff] at hfound hfound₁ hblk hm hmod
        rw [← hblk, hsrc]
        refine (hwritten₁ data hsrc).write h hrun₁ hgrown₁ (by omega) hfound₁ ?_ ?_ ?_
          fun k hlo hhi => hfull₁ _ (hbelow k hlo hhi)
        · rw [← hsrc, hblk]
          exact hrun₂
        · rw [← hsrc, hblk]
          exact hgrown₂
        · rw [hfound.1]
      · rw [htotm]
        omega
  · rename_i hge
    exact ⟨fun h => absurd h (by simp), fun _ => ⟨hrun, hgrown, hfull, htot, hoff,
      fun data hsrc => ⟨hwritten data hsrc, fun hlt => absurd hlt hge⟩⟩⟩

/-- **What `writei` does** when it has written `tot` of the `n` bytes `data` at `off`. -/
structure FileWritten (sb : Superblock) (ip off n : Nat) (data : Nat → UInt8) (s : State) (tot : Nat)
    (s' : State) : Prop where
  le : tot ≤ n
  short : tot < n → (tot = 0 ∨ (off + tot) % BSIZE = 0) ∧
    (s.inode ip).copy.fileBlock s.disk ((off + tot) / BSIZE) = 0 ∧ Starved sb s s'
  size : (s'.inode ip).copy.size.toNat = max (s.inode ip).copy.size.toNat (off + tot)
  bytes : ∀ k < (s'.inode ip).copy.size.toNat, (s'.inode ip).copy.fileByte s'.disk k =
    if off ≤ k ∧ k < off + tot then data (k - off) else (s.inode ip).copy.fileByte s.disk k
  fields : ∃ addrs size, s'.inode ip =
    (s.inode ip).setCopy { (s.inode ip).copy with addrs := addrs, size := size }
  table : ∀ j, j ≠ ip → s'.inode j = s.inode j
  dinodes : ∀ i < sb.ninodes, i ≠ (s.inode ip).inum → dinodeAt sb s'.disk i = dinodeAt sb s.disk i
  others : ∀ i < sb.ninodes, i ≠ (s.inode ip).inum → (dinodeAt sb s.disk i).type ≠ 0 →
    ∀ k < (dinodeAt sb s.disk i).size.toNat,
      (dinodeAt sb s.disk i).fileByte s'.disk k = (dinodeAt sb s.disk i).fileByte s.disk k

theorem Consistent.fileByte_eq (h : Consistent sb first s) {i : Nat} (hi : i < sb.ninodes)
    (hlive : (dinodeAt sb s.disk i).type ≠ 0) {d' : Disk}
    (hdata : ∀ p b, diskOwner sb s.disk p = some b → p.1 = i → d' b = s.disk b) {k : Nat}
    (hk : k < (dinodeAt sb s.disk i).size.toNat) :
    (dinodeAt sb s.disk i).fileByte d' k = (dinodeAt sb s.disk i).fileByte s.disk k := by
  have hown : ∀ slot, diskOwner sb s.disk (i, slot) =
      nonzero ((dinodeAt sb s.disk i).block s.disk slot) := fun slot => if_pos ⟨hi, hlive⟩
  have hblock : (dinodeAt sb s.disk i).block d' = (dinodeAt sb s.disk i).block s.disk := by
    refine Dinode.block_congr_disk fun hne => hdata (i, .indirect) _ ?_ rfl
    rw [hown]
    exact nonzero_eq_some.mpr ⟨rfl, fun hz => hne (UInt32.toNat_inj.mp hz)⟩
  have hfound := h.noHole i hi hlive (k / BSIZE)
    (Nat.lt_of_le_of_lt (Nat.div_mul_le_self _ _) hk)
  have hlt := Dinode.lt_of_fileBlock hfound
  unfold Dinode.fileByte
  rw [Dinode.fileBlock_eq hlt] at hfound ⊢
  rw [Dinode.fileBlock_eq hlt, hblock]
  refine congrFun (hdata (i, slotOf _ hlt) _ ?_ rfl) _
  rw [hown]
  exact nonzero_eq_some.mpr ⟨rfl, hfound⟩

theorem Written.finish (hL : Layout sb first) (h : Consistent sb first s) (hr : Ready ip s)
    {n : Nat} {size : UInt32} (hw : Written sb (dinodeAt sb s.disk) ip off data s tot t)
    (hrun : Running sb first (dinodeAt sb s.disk) ip t [])
    (hg : Grown sb (dinodeAt sb s.disk) ip s t) (hoff : off ≤ (s.inode ip).copy.size.toNat)
    (hle : tot ≤ n) (hshort : tot < n → (tot = 0 ∨ (off + tot) % BSIZE = 0) ∧
      (s.inode ip).copy.fileBlock s.disk ((off + tot) / BSIZE) = 0 ∧ Starved sb s t)
    (hfull : ∀ bn, bn * BSIZE < off + tot → (t.inode ip).copy.fileBlock t.disk bn ≠ 0)
    (hinode : s'.inode ip = (t.inode ip).setCopy ((t.inode ip).copy.setSize size))
    (hsize : size.toNat = max (s.inode ip).copy.size.toNat (off + tot))
    (htable : ∀ j, j ≠ ip → s'.inode j = s.inode j)
    (hkept : OthersKept sb (· = (s.inode ip).inum) s s') (hcount : Counted t s')
    (hblocks : ∀ b, sb.bmapstart ≤ b → s'.disk b = t.disk b) :
    FileWritten sb ip off n data s tot s' := by
  obtain ⟨hrun₀, hown₀⟩ := h.running hL hr
  have hhigh : ∀ p b, owns sb (dinodeAt sb s.disk) ip t p = some b → s'.disk b = t.disk b := by
    intro p b hp
    have hdata := hrun.owned_data hp
    have := hL.bmapstart_lt
    exact hblocks b (by omega)
  have hind : (t.inode ip).copy.addrs (Fin.last NDIRECT) ≠ 0 →
      s'.disk ((t.inode ip).copy.addrs (Fin.last NDIRECT)).toNat =
        t.disk ((t.inode ip).copy.addrs (Fin.last NDIRECT)).toNat := fun hne => by
    refine hhigh ((t.inode ip).inum, .indirect) _ ?_
    rw [owns_self hrun]
    exact nonzero_eq_some.mpr ⟨rfl, fun hz => hne (UInt32.toNat_inj.mp hz)⟩
  have hcopy : (s'.inode ip).copy = (t.inode ip).copy.setSize size := by rw [hinode]; rfl
  -- the blocks and the bytes of the file are those of `t`
  have hbyte : ∀ k, (t.inode ip).copy.fileBlock t.disk (k / BSIZE) ≠ 0 →
      (s'.inode ip).copy.fileByte s'.disk k = (t.inode ip).copy.fileByte t.disk k := by
    intro k hk
    have hlt := Dinode.lt_of_fileBlock hk
    have hsame : (s'.inode ip).copy.fileBlock s'.disk (k / BSIZE) =
        (t.inode ip).copy.fileBlock t.disk (k / BSIZE) := by
      have haddrs : ((t.inode ip).copy.setSize size).block s'.disk =
          (t.inode ip).copy.block s'.disk := Dinode.block_congr rfl
      rw [hcopy, Dinode.fileBlock_eq hlt, Dinode.fileBlock_eq hlt, haddrs,
        Dinode.block_congr_disk hind]
    unfold Dinode.fileByte
    rw [hsame, hhigh _ _ (owns_fileBlock hrun hk)]
  have hsize' : (s'.inode ip).copy.size = size := by rw [hcopy]; rfl
  refine ⟨hle, fun hlt => ⟨(hshort hlt).1, (hshort hlt).2.1, ?_⟩, by rw [hsize', hsize], fun k hk => ?_, ?_, htable,
    fun i hi hne => hkept i (hL.IBLOCK_lt hi) hne, fun i hi hne hlive k hk => ?_⟩
  · rcases (hshort hlt).2.2 with ⟨c, hlo, hhi, hout⟩ | hused
    · exact Or.inl ⟨c, hlo, Nat.lt_of_lt_of_le hhi hcount.ballocs, hout⟩
    · refine Or.inr fun b hb => ?_
      unfold markedFree
      rw [hblocks _ (bmapstart_le_BBLOCK b)]
      exact hused b hb
  · rw [hsize', hsize] at hk
    have hdiv := Nat.div_mul_le_self k BSIZE
    by_cases hin : off ≤ k ∧ k < off + tot
    · rw [if_pos hin, hbyte k (hfull _ (by omega))]
      exact hw.inside k hin.1 hin.2
    · have hpresent := h.dense hr (k / BSIZE) (by omega)
      rw [if_neg hin, hbyte k (hg.fileBlock_ne_zero hrun₀ hrun hpresent)]
      exact hw.outside k hpresent hin
  · obtain ⟨addrs, hfields⟩ := hg.fields
    exact ⟨addrs, size, by rw [hinode, hfields]; rfl⟩
  · refine h.fileByte_eq hi hlive (fun p b hp hpi => ?_) hk
    rw [← hown₀] at hp
    rw [hhigh p b (hg.kept p b hp)]
    exact hw.elsewhere p b hp (by rwa [hpi])

/-- **`writei`** keeps the state consistent, wherever it stops, and writes the bytes of the
    source if none of its addresses is bad. -/
theorem wp_writei [LogMayPanic E] (hL : Layout sb first) (h : Consistent sb first s)
    (hr : Ready ip s) (src : Nat → Option UInt8) (off n : UInt32) :
    wp (writei sb ip src off n) E (fun r s' =>
      Consistent sb first s' ∧ SameTable s s' ∧ OthersKept sb (· = (s.inode ip).inum) s s' ∧
      ∀ data, src = (fun k => some (data k)) → off.toNat ≤ (s.inode ip).copy.size.toNat →
        off.toNat + n.toNat ≤ MAXFILE * BSIZE →
        ∃ tot : Nat, r = tot ∧ FileWritten sb ip off.toNat n.toNat data s tot s') s := by
  have hself : SameTable s s := .of_eq rfl
  have hmax : MAXFILE * BSIZE < 2 ^ 32 := by decide
  obtain ⟨hrun₀, hown₀⟩ := h.running hL hr
  simp only [writei, wp_bind, wp_get]
  split
  · rename_i hin
    rw [UInt32.lt_iff_toNat_lt, UInt32.lt_iff_toNat_lt, UInt32.toNat_add] at hin
    refine ⟨h, hself, .of_disk_eq rfl, fun data _ hle hfit => ?_⟩
    rw [Nat.mod_eq_of_lt (by omega)] at hin
    omega
  split
  · rename_i hin hbig
    rw [UInt32.toNat_add] at hbig
    refine ⟨h, hself, .of_disk_eq rfl, fun data _ hle hfit => ?_⟩
    rw [Nat.mod_eq_of_lt (by omega)] at hbig
    omega
  rename_i hin hfit
  obtain ⟨hoff, hwrap⟩ := not_or.mp hin
  rw [UInt32.lt_iff_toNat_lt, Nat.not_lt] at hoff hwrap
  rw [toNat_add_of_not_wrap hwrap] at hfit
  rw [wp_bind]
  refine wp_mono (wp_writeLoop hL hrun₀ src (Nat.not_lt.mp hfit) fun bn hbn =>
    h.dense hr bn (Nat.lt_of_lt_of_le hbn hoff)) ?_
  rintro v t ⟨hrun, hgrown, hfull, htot, hvoff, hwritten⟩
  have hold : ∀ bn, bn * BSIZE < (t.inode ip).copy.size.toNat →
      (t.inode ip).copy.fileBlock t.disk bn ≠ 0 := fun bn hbn =>
    hgrown.fileBlock_ne_zero hrun₀ hrun (h.dense hr bn (by rwa [← hgrown.size]))
  rw [hvoff] at hwritten hfull
  -- either way no hole is left below the size
  have hfinish : ∀ u size, Closing sb first ip s u → u.disk = t.disk → Counted t u →
      u.inode ip = (t.inode ip).setCopy ((t.inode ip).copy.setSize size) →
      size.toNat = max (s.inode ip).copy.size.toNat (off.toNat + v.tot.toNat) →
      wp (iupdate sb ip) E (fun _ s' => Consistent sb first s' ∧ SameTable s s' ∧
        OthersKept sb (· = (s.inode ip).inum) s s' ∧
        ∀ data, src = (fun k => some (data k)) → off.toNat ≤ (s.inode ip).copy.size.toNat →
          off.toNat + n.toNat ≤ MAXFILE * BSIZE →
          ∃ tot : Nat, (v.tot.toNat : Int) = tot ∧
            FileWritten sb ip off.toNat n.toNat data s tot s') u := by
    intro u size hu hdisk hcount hinode hsize
    refine wp_mono (wp_iupdate hL h hr hu) ?_
    rintro _ s' ⟨hcons, hinode', hkept, hcount', hblocks⟩
    refine ⟨hcons, hu.sameTable.trans (.of_eq hinode'), hkept, fun data hsrc _ _ =>
      ⟨v.tot.toNat, rfl, (hwritten data hsrc).1.finish hL h hr hrun hgrown hoff
        (UInt32.le_iff_toNat_le.mp htot) (fun hlt => ?_) hfull
        (by rw [hinode', hinode]) hsize (fun j hj => by rw [hinode', hu.others j hj]) hkept
        (hcount.trans hcount') fun b hb => by rw [hblocks b hb, hdisk]⟩⟩
    obtain ⟨hbound, hnone⟩ := (hwritten data hsrc).2 (UInt32.lt_iff_toNat_lt.mpr hlt)
    exact ⟨hbound.imp_left (congrArg UInt32.toNat), hnone⟩
  simp only [wp_bind, extend, wp_get, wp_pure]
  rw [hgrown.size]
  split
  · rename_i hlt
    rw [UInt32.lt_iff_toNat_lt] at hlt
    refine hfinish _ v.off (hgrown.closing_setCopy hL h hr hrun rfl hrun.live fun bn hbn => ?_)
      rfl ⟨rfl, Nat.le_refl _⟩ (State.setInode_self ..) (by omega)
    have hsame : ((t.inode ip).copy.setSize v.off).fileBlock t.disk =
        (t.inode ip).copy.fileBlock t.disk := Dinode.fileBlock_congr rfl
    rw [hsame]
    exact hfull bn (hvoff ▸ hbn)
  · rename_i hge
    rw [UInt32.lt_iff_toNat_lt] at hge
    refine hfinish t (t.inode ip).copy.size (hgrown.closing hL h hr hrun hold) rfl Counted.refl rfl ?_
    rw [hgrown.size]
    omega

end Write

/-! ### `itrunc` -/

section Truncate

variable {sb : Superblock} {first ip : Nat} {D : Nat → Dinode} {s : State}
  {own : Nat × Slot → Option Nat}

/-- From `s` to `s'` only blocks of the bitmap have changed. -/
def OnlyBitmap (sb : Superblock) (first : Nat) (s s' : State) : Prop :=
  s'.inode = s.inode ∧ ∀ b, b < sb.bmapstart ∨ first ≤ b → s'.disk b = s.disk b

theorem OnlyBitmap.trans {s' s'' : State} (h : OnlyBitmap sb first s s')
    (h' : OnlyBitmap sb first s' s'') : OnlyBitmap sb first s s'' :=
  ⟨h'.1.trans h.1, fun b hb => (h'.2 b hb).trans (h.2 b hb)⟩

/-- **`bfree`** of the block of a place: the place is empty afterwards. -/
theorem wp_bfree_owned (own' : Nat × Slot → Option Nat) (hL : Layout sb first) {b : UInt32}
    (h : Books sb first own s.disk []) {p : Nat × Slot} (hp : own p = some b.toNat) (hp' : own' p = none)
    (hrest : ∀ q, q ≠ p → own' q = own q) :
    wp (bfree sb b) Benign (fun _ s' =>
      Books sb first own' s'.disk [] ∧ OnlyBitmap sb first s s') s := by
  have hdata := h.exact.owned p _ hp
  refine wp_mono (wp_bfree ⟨h.exact.take hp hp' hrest, h.metadata⟩)
    fun _ s' ⟨hinode, hbooks, hdisk⟩ => ⟨hbooks, hinode, fun c hc => hdisk c ?_⟩
  have hlo := @bmapstart_le_BBLOCK sb b.toNat
  have hhi := hL.BBLOCK_lt hdata.2
  omega

/-- The blocks of `own` without entries `0..j-1` of the indirect block of inode `i`. -/
def withoutEntries (own : Nat × Slot → Option Nat) (i j : Nat) (p : Nat × Slot) : Option Nat :=
  match p.2 with
  | .entry l => if p.1 = i ∧ (l : Nat) < j then none else own p
  | _ => own p

theorem withoutEntries_zero (i : Nat) : withoutEntries own i 0 = own := by
  funext ⟨n, k⟩
  cases k <;> simp [withoutEntries]

theorem withoutEntries_succ {i j : Nat} {q : Nat × Slot} (hj : j < NINDIRECT)
    (hq : q ≠ (i, .entry ⟨j, hj⟩)) :
    withoutEntries own i (j + 1) q = withoutEntries own i j q := by
  obtain ⟨n, k⟩ := q
  cases k with
  | direct l => rfl
  | indirect => rfl
  | entry l =>
    have hne : ¬ (n = i ∧ (l : Nat) = j) := by
      rintro ⟨rfl, hl⟩
      exact hq (by rw [show l = ⟨j, hj⟩ from Fin.ext hl])
    have hiff : (n = i ∧ (l : Nat) < j + 1) ↔ (n = i ∧ (l : Nat) < j) := by omega
    simp only [withoutEntries, hiff]

/-- The owners once `addrs[k]` is cleared. -/
def cleared (sb : Superblock) (D : Nat → Dinode) (ip : Nat) (k : Fin (NDIRECT + 1)) (s : State) :
    Nat × Slot → Option Nat :=
  owner sb (view D ((s.inode ip).setCopy ((s.inode ip).copy.setAddr k 0))) s.disk

theorem Running.clear (hL : Layout sb first) (h : Running sb first D ip s [])
    (k : Fin (NDIRECT + 1)) {s₁ : State} (hbit : OnlyBitmap sb first s s₁)
    (hbooks : Books sb first (cleared sb D ip k s) s₁.disk []) :
    wp (setAddr ip k 0) Benign (fun _ t => Running sb first D ip t [] ∧ Changed sb D ip s t ∧
      (t.inode ip).copy.addrs = update (s.inode ip).copy.addrs k 0) s₁ := by
  simp only [setAddr, setInode, wp_modify, hbit.1]
  generalize ht : s₁.setInode ip ((s.inode ip).setCopy ((s.inode ip).copy.setAddr k 0)) = t
  have htip : t.inode ip = (s.inode ip).setCopy ((s.inode ip).copy.setAddr k 0) := by
    rw [← ht, State.setInode_self]
  have htd : t.disk = s₁.disk := by rw [← ht, State.setInode_disk]
  have hown : ∀ p, owns sb D ip t p = cleared sb D ip k s p := by
    intro p
    rw [owns, htip, htd]
    exact owner_congr_disk fun b hb => hbit.2 b (Or.inr (hbooks.exact.owned _ b hb).1)
  have hbooks' : Books sb first (owns sb D ip t) t.disk [] := by
    rw [htd, show owns sb D ip t = cleared sb D ip k s from funext hown]
    exact hbooks
  have hlow : ∀ b < sb.bmapstart, t.disk b = s.disk b := fun b hb => by
    rw [htd]
    exact hbit.2 b (Or.inl hb)
  refine ⟨⟨?_, ?_, fun i hi => ?_, hbooks'⟩, ⟨fun j hj => ?_, ⟨_, htip⟩, fun p hp => ?_, hlow⟩, ?_⟩
  · rw [htip]
    exact h.inum_lt
  · rw [htip]
    exact h.live
  · exact (hL.dinodeAt_congr hlow hi).trans (h.dinodes i hi)
  · rw [← ht, State.setInode_ne _ _ hj, hbit.1]
  · rw [hown p]
    exact (owner_other hp).trans (owner_other hp).symm
  · rw [htip]
    rfl

theorem wp_freeAddr (hL : Layout sb first) (h : Running sb first D ip s []) (i : Fin NDIRECT) :
    wp (freeAddr sb ip i.castSucc) Benign (fun _ t =>
      Running sb first D ip t [] ∧ Changed sb D ip s t ∧
      (t.inode ip).copy.addrs = update (s.inode ip).copy.addrs i.castSucc 0) s := by
  simp only [freeAddr, wp_bind, wp_get]
  split
  · rename_i hzero
    refine ⟨h, Changed.refl, ?_⟩
    rw [← hzero, update_eq_self]
  · rename_i hne
    have hlive : ((s.inode ip).copy.setAddr i.castSucc 0).type ≠ 0 := h.live
    have hblock : ∀ a : UInt32, ((s.inode ip).copy.setAddr i.castSucc a).block s.disk (.direct i) =
        a.toNat := by
      intro a
      rw [← addrSlot_castSucc, block_addrSlot, Dinode.setAddr_self]
    rw [wp_bind]
    refine wp_mono (wp_bfree_owned (cleared sb D ip i.castSucc s) hL h.books
      (p := ((s.inode ip).inum, .direct i)) ?_ ?_ ?_) fun _ s₁ hfreed =>
        h.clear hL _ hfreed.2 hfreed.1
    · rw [owns_self h]
      exact nonzero_eq_some.mpr ⟨rfl, fun hz => hne (UInt32.toNat_inj.mp hz)⟩
    · refine (owner_self h.inum_lt hlive).trans ?_
      rw [hblock]
      rfl
    · rintro ⟨n, k⟩ hq
      by_cases hn : n = (s.inode ip).inum
      · subst hn
        have hk : k ≠ addrSlot i.castSucc := fun heq => hq (by rw [heq, addrSlot_castSucc])
        rw [owns_self h]
        refine (owner_self h.inum_lt hlive).trans (congrArg nonzero (block_setAddr ?_ hk))
        exact fun hlast => absurd hlast (Fin.ne_of_lt (Fin.castSucc_lt_last i))
      · exact (owner_other hn).trans (owner_other hn).symm

theorem wp_freeIndirect (hL : Layout sb first) (h : Running sb first D ip s []) :
    wp (freeIndirect sb ip) Benign (fun _ t =>
      Running sb first D ip t [] ∧ Changed sb D ip s t ∧
      (t.inode ip).copy.addrs =
        update (s.inode ip).copy.addrs (Fin.last NDIRECT) 0) s := by
  simp only [freeIndirect, wp_bind, wp_get]
  split
  · rename_i hzero
    refine ⟨h, Changed.refl, ?_⟩
    rw [← hzero, update_eq_self]
  rename_i hne
  have hlive : ((s.inode ip).copy.setAddr (Fin.last NDIRECT) 0).type ≠ 0 := h.live
  have hentry : ∀ l : Fin NINDIRECT, owns sb D ip s ((s.inode ip).inum, .entry l) =
      nonzero (getLE (s.disk ((s.inode ip).copy.addrs (Fin.last NDIRECT)).toNat) (4 * l) 4) := by
    intro l
    rw [owns_self h]
    simp only [Dinode.block, if_neg hne]
  simp only [wp_bind, bread, wp_get, wp_pure]
  -- entry by entry the blocks leave the books; the indirect block itself is still listed
  refine wp_forRange (I := fun j t => OnlyBitmap sb first s t ∧
      Books sb first (withoutEntries (owns sb D ip s) (s.inode ip).inum j) t.disk [])
    NINDIRECT ⟨⟨rfl, fun _ _ => rfl⟩, ?_⟩ ?_ ?_
  · rw [withoutEntries_zero]
    exact h.books
  · rintro j t _ hj ⟨hbit, hbooks⟩
    have hj' : j < NINDIRECT := by omega
    have hself : withoutEntries (owns sb D ip s) (s.inode ip).inum j
        ((s.inode ip).inum, .entry ⟨j, hj'⟩) = nonzero (getLE (s.disk
          ((s.inode ip).copy.addrs (Fin.last NDIRECT)).toNat) (4 * j) 4) := by
      simp only [withoutEntries, Nat.lt_irrefl, and_false, if_false]
      exact hentry ⟨j, hj'⟩
    have hnext : withoutEntries (owns sb D ip s) (s.inode ip).inum (j + 1)
        ((s.inode ip).inum, .entry ⟨j, hj'⟩) = none := by
      simp [withoutEntries]
    split
    · rename_i hzero
      refine ⟨hbit, hbooks.congr hL (fun q => ?_) fun _ _ => rfl⟩
      by_cases hq : q = ((s.inode ip).inum, .entry ⟨j, hj'⟩)
      · rw [hq, hnext, hself, ofNat_getLE_eq_zero.mp hzero]
        rfl
      · exact withoutEntries_succ hj' hq
    · rename_i hused
      refine wp_mono (wp_bfree_owned _ hL hbooks (hself.trans (nonzero_eq_some.mpr
        ⟨(toNat_ofNat_getLE _ _).symm, fun hz => hused (UInt32.toNat_inj.mp hz)⟩)) hnext
          fun q hq => withoutEntries_succ hj' hq) fun _ t' hfreed =>
        ⟨hbit.trans hfreed.2, hfreed.1⟩
  · rintro t ⟨hbit, hbooks⟩
    refine wp_mono (wp_bfree_owned (cleared sb D ip (Fin.last NDIRECT) s) hL hbooks
      (p := ((s.inode ip).inum, .indirect)) ?_ ?_ ?_) fun _ s₁ hfreed =>
        h.clear hL _ (hbit.trans hfreed.2) hfreed.1
    · simp only [withoutEntries, owns_self h]
      exact nonzero_eq_some.mpr ⟨rfl, fun hz => hne (UInt32.toNat_inj.mp hz)⟩
    · refine (owner_self h.inum_lt hlive).trans ?_
      rw [← addrSlot_last, block_addrSlot, Dinode.setAddr_self]
      rfl
    · rintro ⟨n, k⟩ hq
      by_cases hn : n = (s.inode ip).inum
      · subst hn
        refine (owner_self h.inum_lt hlive).trans ?_
        cases k with
        | direct l =>
          simp only [withoutEntries, owns_self h]
          refine congrArg nonzero ?_
          simp only [Dinode.block, Dinode.setAddr,
            update_of_ne (Fin.ne_of_lt (Fin.castSucc_lt_last l))]
        | indirect => exact absurd rfl hq
        | entry l =>
          simp [withoutEntries, Dinode.block]
      · have hother : withoutEntries (owns sb D ip s) (s.inode ip).inum (0 + NINDIRECT) (n, k) =
            owns sb D ip s (n, k) := by
          cases k <;> simp [withoutEntries, hn]
        rw [hother]
        exact (owner_other hn).trans (owner_other hn).symm

/-- **`itrunc`** leaves the inode without blocks. -/
theorem wp_itrunc (hL : Layout sb first) (h : Consistent sb first s) (hr : Ready ip s) :
    wp (itrunc sb ip) Benign (fun _ s' => Consistent sb first s' ∧ SameTable s s' ∧
      OthersKept sb (· = (s.inode ip).inum) s s' ∧ ∀ k, (s'.inode ip).copy.addrs k = 0) s := by
  unfold itrunc
  rw [wp_bind]
  refine wp_forRange (I := fun i t => Running sb first (dinodeAt sb s.disk) ip t [] ∧
      Changed sb (dinodeAt sb s.disk) ip s t ∧
      ∀ k : Fin NDIRECT, (k : Nat) < i → (t.inode ip).copy.addrs k.castSucc = 0)
    NDIRECT ⟨(h.running hL hr).1, Changed.refl, fun k hk => absurd hk (by omega)⟩ ?_ ?_
  · rintro i t _ hi ⟨hrun, hch, hzero⟩
    have hi' : i < NDIRECT := by omega
    rw [dif_pos (Nat.lt_succ_of_lt hi')]
    refine wp_mono (wp_freeAddr hL hrun ⟨i, hi'⟩) ?_
    rintro _ t' ⟨hrun', hch', haddrs⟩
    refine ⟨hrun', hch.trans hch', fun k hk => ?_⟩
    rw [haddrs]
    by_cases hki : k = ⟨i, hi'⟩
    · rw [hki, update_self]
    · have hne : k.castSucc ≠ (⟨i, hi'⟩ : Fin NDIRECT).castSucc := fun heq =>
        hki (Fin.castSucc_inj.mp heq)
      rw [update_of_ne hne]
      have hval : (k : Nat) ≠ i := fun heq => hki (Fin.ext heq)
      exact hzero k (by omega)
  · rintro t ⟨hrun, hch, hzero⟩
    rw [wp_bind]
    refine wp_mono (wp_freeIndirect hL hrun) ?_
    rintro _ t' ⟨hrun', hch', haddrs⟩
    simp only [wp_bind, setSize, setInode, wp_modify]
    have hclosing := (hch.trans hch').closing_setCopy hL h hr hrun'
      (x := (t'.inode ip).copy.setSize 0) rfl hrun'.live fun bn hbn => absurd hbn (Nat.not_lt_zero _)
    refine wp_mono (wp_iupdate hL h hr hclosing) ?_
    rintro _ s' ⟨hcons, hinode, hkept, _⟩
    refine ⟨hcons, hclosing.sameTable.trans (.of_eq hinode), hkept, fun k => ?_⟩
    rw [hinode, State.setInode_self]
    show (t'.inode ip).copy.addrs k = 0
    rw [haddrs]
    induction k using Fin.lastCases with
    | last => exact update_self ..
    | cast i =>
      rw [update_of_ne (Fin.ne_of_lt (Fin.castSucc_lt_last i))]
      exact hzero i (by omega)

end Truncate

end Xv6.Fs
