import Xv6.Bio.Coherence
import Xv6.Log.Reservation
import Xv6.Log.Recovery

/-!
# The commit over the buffer cache

`write_log`, `write_head`, `install_trans` and `commit` of `kernel/log.c` as they go
through `bread`, `bwrite`, `brelse` and `bunpin`.  Over a coherent cache they do to the
disk what the programs of `Log.Recovery` do.  Whether they get that far depends on the
size of the cache: they need a buffer for a log block beside the pinned home blocks.
-/

namespace Xv6.Bio

open Transition Function

/-! ### `log.c` -/

/-- The body of the loop in `write_log`. -/
def writeLogBlock (me : Pid) (start : Nat) (lh : List Nat) (tail : Nat) (s : State) :
    Outcome Panic State := do
  let (dst, s) ← bread me ROOTDEV (start + tail + 1) s
  let (src, s) ← bread me ROOTDEV (lh.getD tail 0) s
  let s ← bwrite me dst (setData dst (s.buf src).data s)
  let s ← brelse me src s
  brelse me dst s

/-- Copy modified blocks from the cache to the log. -/
def writeLog (me : Pid) (start : Nat) (lh : List Nat) : State → Outcome Panic State :=
  Outcome.forRange (writeLogBlock me start lh) lh.length

/-- Write the in-memory log header to disk. -/
def writeHead (me : Pid) (start : Nat) (lh : List Nat) (s : State) : Outcome Panic State := do
  let (buf, s) ← bread me ROOTDEV start s
  let s ← bwrite me buf (setData buf (Log.fillHeader (s.buf buf).data lh) s)
  brelse me buf s

/-- The body of the loop in `install_trans(0)`. -/
def installBlock (me : Pid) (start : Nat) (lh : List Nat) (tail : Nat) (s : State) :
    Outcome Panic State := do
  let (lbuf, s) ← bread me ROOTDEV (start + tail + 1) s
  let (dbuf, s) ← bread me ROOTDEV (lh.getD tail 0) s
  let s ← bwrite me dbuf (setData dbuf (s.buf lbuf).data s)
  let s ← brelse me lbuf (bunpin dbuf s)
  brelse me dbuf s

/-- Copy committed blocks from the log to their home location. -/
def installTrans (me : Pid) (start : Nat) (lh : List Nat) : State → Outcome Panic State :=
  Outcome.forRange (installBlock me start lh) lh.length

def commit (me : Pid) (start : Nat) (lh : List Nat) (s : State) : Outcome Panic State :=
  if 0 < lh.length then do
    let s ← writeLog me start lh s
    let s ← writeHead me start lh s
    let s ← installTrans me start lh s
    writeHead me start [] s
  else .done s

/-! ### What the parts of a commit do over a coherent cache -/

section Coherence

variable {s s' : State} {P : List Nat} {M : Nat → Prop} {A : Disk} {me : Pid} {i j b c : Nat}

theorem bwrite_setData_done (h : Coherent s P M A) (hh : Holds s me b i) {v : Block}
    (hs : bwrite me i (setData i v s) = .done s') :
    Coherent s' P (fun c => M c ∧ c ≠ b) (update A b v) ∧
    s'.disk = update s.disk b v ∧ s'.waiting = s.waiting ∧ Holds s' me b i ∧
    ∀ j, j ≠ i → s'.buf j = s.buf j := by
  have hset := setData_coherent h hh v
  have hh' : Holds (setData i v s) me b i := Holds.setBuf hh.lt hh.caches hh.lock
  obtain ⟨rfl, hw⟩ := bwrite_done hset hh' hs
  refine ⟨hw.logged (fun c hm => ⟨Or.inl hm.1, hm.2⟩) (fun c hm => ?_), ?_, rfl, hh'.congr rfl,
    fun j hji => State.setBuf_ne _ _ hji⟩
  · exact Or.inl ⟨hm.1.resolve_right hm.2, hm.2⟩
  · show update s.disk b (update A b v b) = _
    rw [update_self]

theorem brelse_brelse_done (h : Coherent s P M A) (hi : Holds s me b i) (hj : Holds s me c j)
    (hij : i ≠ j) (hb : ¬ M b) (hc : ¬ M c)
    (hs : (do let s ← brelse me i s; brelse me j s) = Outcome.done s') :
    Coherent s' P M A ∧ s'.disk = s.disk ∧ s'.waiting = s.waiting := by
  obtain ⟨t, h1, h2⟩ := Outcome.bind_eq_done.mp hs
  obtain ⟨ht, hd, hw, hbuf⟩ := brelse_done h hi hb h1
  have hj' : Holds t me c j := hj.congr (by rw [hbuf, State.setBuf_ne _ _ (Ne.symm hij)])
  obtain ⟨hs', hd', hw', _⟩ := brelse_done ht hj' hc h2
  exact ⟨hs', hd'.trans hd, hw'.trans hw⟩

theorem bread_bread_done (h : Coherent s P M A) {t : State}
    (h1 : bread me ROOTDEV b s = .done (i, t)) (h2 : bread me ROOTDEV c t = .done (j, s')) :
    Coherent s' P M A ∧ Holds s' me b i ∧ Holds s' me c j ∧ i ≠ j ∧ ¬ M b ∧ ¬ M c ∧
    s'.disk = s.disk ∧ s'.waiting = s.waiting := by
  obtain ⟨ht, hi, hb, _, hd, hw, _⟩ := bread_done h h1
  obtain ⟨hs', hj, hc, hlock, hd', hw', hother⟩ := bread_done ht h2
  have hij : i ≠ j := by
    rintro rfl
    exact hi.ne_none hlock
  exact ⟨hs', hi.congr (hother i hij), hj, hij, hb, hc, hd'.trans hd, hw'.trans hw⟩

variable {start : Nat} {lh : List Nat} {t : Nat}

theorem writeLogBlock_done (h : Coherent s P M A)
    (hs : writeLogBlock me start lh t s = .done s') :
    Coherent s' P M (update A (start + t + 1) (A (lh.getD t 0))) ∧
    s'.disk = (Log.writeLogBlock start lh A t).exec s.disk ∧ s'.waiting = s.waiting := by
  obtain ⟨⟨dst, u⟩, h1, hr1⟩ := Outcome.bind_eq_done.mp hs
  obtain ⟨⟨src, v⟩, h2, hr2⟩ := Outcome.bind_eq_done.mp hr1
  obtain ⟨w, h3, h4⟩ := Outcome.bind_eq_done.mp hr2
  obtain ⟨hv, hdst, hsrc, hds, hMdst, hMsrc, hdisk, hwait⟩ := bread_bread_done h h1 h2
  obtain ⟨hw, hdisk', hwait', hdst', hother⟩ := bwrite_setData_done hv hdst h3
  rw [hv.data_of_held hsrc] at hw hdisk'
  obtain ⟨hs', hdisk'', hwait''⟩ := brelse_brelse_done hw (hsrc.congr (hother src (Ne.symm hds)))
    hdst' (Ne.symm hds) (fun hm => hMsrc hm.1) (fun hm => hm.2 rfl) h4
  refine ⟨hs'.logged (fun c hm => ⟨hm, ?_⟩) (fun c hm => Or.inl hm.1), ?_, ?_⟩
  · rintro rfl
    exact hMdst hm
  · rw [hdisk'', hdisk', hdisk]
    rfl
  · rw [hwait'', hwait', hwait]

theorem writeHead_done (h : Coherent s P M A) (hs : writeHead me start lh s = .done s') :
    Coherent s' P M (update A start (Log.fillHeader (A start) lh)) ∧
    s'.disk = update s.disk start (Log.fillHeader (A start) lh) ∧
    s'.waiting = s.waiting := by
  obtain ⟨⟨i, u⟩, h1, hr1⟩ := Outcome.bind_eq_done.mp hs
  obtain ⟨v, h2, h3⟩ := Outcome.bind_eq_done.mp hr1
  obtain ⟨hu, hi, hM, _, hdisk, hwait, _⟩ := bread_done h h1
  obtain ⟨hv, hdisk', hwait', hi', _⟩ := bwrite_setData_done hu hi h2
  rw [hu.data_of_held hi] at hv hdisk'
  obtain ⟨hs', hdisk'', hwait'', _⟩ := brelse_done hv hi' (fun hm => hm.2 rfl) h3
  refine ⟨hs'.logged (fun c hm => ⟨hm, ?_⟩) (fun c hm => Or.inl hm.1), ?_, ?_⟩
  · rintro rfl
    exact hM hm
  · rw [hdisk'', hdisk', hdisk]
  · rw [hwait'', hwait', hwait]

/-- One block of `install_trans`: the home block, which becomes a copy of the log block, is
    on disk and needs its pin no more. -/
theorem installBlock_done (h : Coherent s P M A) (hb : lh.getD t 0 ∈ P) (hP : P.Nodup)
    (hs : installBlock me start lh t s = .done s') :
    Coherent s' (P.erase (lh.getD t 0)) M
      (update A (lh.getD t 0) (A (start + t + 1))) ∧
    s'.disk = update s.disk (lh.getD t 0) (A (start + t + 1)) ∧
    s'.waiting = s.waiting ∧ ¬ M (lh.getD t 0) := by
  obtain ⟨⟨src, u⟩, h1, hr1⟩ := Outcome.bind_eq_done.mp hs
  obtain ⟨⟨dst, v⟩, h2, hr2⟩ := Outcome.bind_eq_done.mp hr1
  obtain ⟨w, h3, h4⟩ := Outcome.bind_eq_done.mp hr2
  obtain ⟨hv, hsrc, hdst, hsd, hMsrc, hMdst, hdisk, hwait⟩ := bread_bread_done h h1 h2
  obtain ⟨hw, hdisk', hwait', hdst', hother⟩ := bwrite_setData_done hv hdst h3
  rw [hv.data_of_held hsrc] at hw hdisk'
  have hup : w.disk (lh.getD t 0) =
      update A (lh.getD t 0) (A (start + t + 1)) (lh.getD t 0) := by
    rw [hdisk', update_self, update_self]
  have hun := bunpin_coherent hw hdst' hb hP hup
  have hsrc' : Holds (bunpin dst w) me (start + t + 1) src :=
    hsrc.congr ((State.setBuf_ne _ _ hsd).trans (hother src hsd))
  have hdst'' : Holds (bunpin dst w) me (lh.getD t 0) dst :=
    Holds.setBuf hdst'.lt hdst'.caches hdst'.lock
  obtain ⟨hs', hdisk'', hwait''⟩ := brelse_brelse_done hun hsrc' hdst'' hsd
    (fun hm => hMsrc hm.1) (fun hm => hm.2 rfl) h4
  refine ⟨hs'.logged (fun c hm => ⟨hm, ?_⟩) (fun c hm => Or.inl hm.1), ?_, ?_, hMdst⟩
  · rintro rfl
    exact hMdst hm
  · rw [hdisk'']
    exact hdisk'.trans (by rw [hdisk])
  · rw [hwait'']
    exact hwait'.trans hwait

end Coherence

/-! ### The commit refines the program on the disk

With no client in the middle of a modification, the cache is coherent throughout, first
with all of `lh` pinned and then with less and less of it. -/

section Refinement

variable {s s' : State} {A : Disk} {me : Pid} {start : Nat} {lh : List Nat}

/-- No block is modified and not logged. -/
def unmodified : Nat → Prop := fun _ => False

theorem Coherent.disk_eq {P : List Nat} {b : Nat} (h : Coherent s P unmodified A) (hb : b ∉ P) :
    s.disk b = A b := by
  rcases h.clean b with hd | hp | hm
  · exact hd
  · exact absurd hp hb
  · exact hm.elim

theorem writeLog_disk (h : Coherent s lh unmodified A)
    (hout : ∀ b ∈ lh, Log.OutsideLog start lh.length b) (hs : writeLog me start lh s = .done s') :
    ∃ A', Coherent s' lh unmodified A' ∧ (∀ b, Log.OutsideLog start lh.length b → A' b = A b) ∧
      s'.disk = (Log.writeLog start lh A).exec s.disk := by
  refine @Outcome.forRange_done _ _ _ (fun t u => ∃ A', Coherent u lh unmodified A' ∧
    (∀ b, Log.OutsideLog start lh.length b → A' b = A b) ∧
    u.disk = (StoreProg.forRange (Log.writeLogBlock start lh A) t).exec s.disk) _ _
    (fun t ht u v hI hbody => ?_) ⟨A, h, fun _ _ => rfl, rfl⟩ _ hs
  obtain ⟨A', hcoh, hhome, hdisk⟩ := hI
  obtain ⟨hcoh', hdisk', _⟩ := writeLogBlock_done hcoh hbody
  refine ⟨_, hcoh', fun b hb => ?_, ?_⟩
  · have hne : b ≠ start + t + 1 := by unfold Log.OutsideLog at hb; omega
    rw [update_of_ne hne]
    exact hhome b hb
  · rw [hdisk', hdisk, StoreProg.forRange, StoreProg.exec_bind, Log.writeLogBlock,
      hhome _ (hout _ (Log.getD_mem_of_lt ht))]
    rfl

theorem writeHead_disk {P lh' : List Nat} (h : Coherent s P unmodified A) (hstart : start ∉ P)
    (hs : writeHead me start lh' s = .done s') :
    ∃ A', Coherent s' P unmodified A' ∧ (∀ b, b ≠ start → A' b = A b) ∧
      s'.disk = (Log.writeHead start lh').exec s.disk := by
  obtain ⟨hcoh, hdisk, _⟩ := writeHead_done h hs
  refine ⟨_, hcoh, fun b hb => update_of_ne hb _ _, ?_⟩
  rw [hdisk, Log.exec_writeHead, h.disk_eq hstart]

theorem erase_drop {t : Nat} (ht : t < lh.length) :
    (lh.drop t).erase (lh.getD t 0) = lh.drop (t + 1) := by
  have hget : lh.getD t 0 = lh[t] := by simp [List.getD, ht]
  rw [List.drop_eq_getElem_cons ht, hget, List.erase_cons_head]

theorem getD_mem_drop {t : Nat} (ht : t < lh.length) : lh.getD t 0 ∈ lh.drop t := by
  have hget : lh.getD t 0 = lh[t] := by simp [List.getD, ht]
  rw [List.drop_eq_getElem_cons ht, hget]
  exact List.mem_cons_self

theorem installTrans_disk (h : Coherent s lh unmodified A) (hP : lh.Nodup)
    (hout : ∀ b ∈ lh, Log.OutsideLog start lh.length b)
    (hs : installTrans me start lh s = .done s') :
    (∃ A', Coherent s' [] unmodified A') ∧
      s'.disk = (Log.installTrans start lh).exec s.disk := by
  have hloop := @Outcome.forRange_done _ _ _ (fun t u =>
    (∃ A', Coherent u (lh.drop t) unmodified A') ∧
    u.disk = (StoreProg.forRange (Log.installBlock start lh) t).exec s.disk) _ _
    (fun t ht u v hI hbody => ?_) ⟨⟨A, h⟩, rfl⟩ _ hs
  · rwa [List.drop_length] at hloop
  · obtain ⟨⟨A', hcoh⟩, hdisk⟩ := hI
    obtain ⟨hcoh', hdisk', _⟩ := installBlock_done hcoh (getD_mem_drop ht)
      (hP.sublist (List.drop_sublist t lh)) hbody
    rw [erase_drop ht] at hcoh'
    refine ⟨⟨_, hcoh'⟩, ?_⟩
    have hlog : start + t + 1 ∉ lh.drop t := fun hmem => by
      have := hout _ (List.mem_of_mem_drop hmem)
      unfold Log.OutsideLog at this
      omega
    rw [hdisk', ← hcoh.disk_eq hlog, hdisk, StoreProg.forRange, StoreProg.exec_bind]
    rfl

/-- **`commit` through the cache writes what `Log.commit` writes**, with the home blocks
    read from the array, and it leaves nothing pinned. -/
theorem commit_refines (h : Coherent s lh unmodified A) (hP : lh.Nodup)
    (hout : ∀ b ∈ lh, Log.OutsideLog start lh.length b) (hs : commit me start lh s = .done s') :
    (∃ A', Coherent s' [] unmodified A') ∧ s'.disk = (Log.commit start lh A).exec s.disk := by
  unfold commit at hs
  split at hs
  · rename_i hn
    have hstart : start ∉ lh := fun hmem => (hout start hmem).ne_start rfl
    obtain ⟨u, h1, hr1⟩ := Outcome.bind_eq_done.mp hs
    obtain ⟨v, h2, hr2⟩ := Outcome.bind_eq_done.mp hr1
    obtain ⟨w, h3, h4⟩ := Outcome.bind_eq_done.mp hr2
    obtain ⟨A₁, hu, _, hdu⟩ := writeLog_disk h hout h1
    obtain ⟨A₂, hv, _, hdv⟩ := writeHead_disk hu hstart h2
    obtain ⟨⟨A₃, hw⟩, hdw⟩ := installTrans_disk hv hP hout h3
    obtain ⟨A₄, hs', _, hds⟩ := writeHead_disk hw (by simp) h4
    refine ⟨⟨A₄, hs'⟩, ?_⟩
    rw [hds, hdw, hdv, hdu, Log.commit, if_pos hn, StoreProg.exec_bind, StoreProg.exec_bind,
      StoreProg.exec_bind]
  · rename_i hn
    obtain rfl := Outcome.done.inj hs
    have hnil : lh = [] := List.eq_nil_of_length_eq_zero (by omega)
    exact ⟨⟨A, hnil ▸ h⟩, by rw [Log.commit, if_neg hn]; rfl⟩

end Refinement

/-! ### Room for the log

`commit` runs when no operation is outstanding.  If nobody else uses the cache, its
buffers are in use only by pins and by the committing process itself. -/

/-- `me` holds the buffers `L`, the blocks `P` are pinned, and no other buffer is in use. -/
structure Quiet (s : State) (P : List Nat) (me : Pid) (L : List Nat) : Prop where
  cache : CacheInv s P
  idle : s.waiting = []
  locks : ∀ k < NBUF, (s.buf k).lock = if k ∈ L then some me else none

section Room

variable {s : State} {P L : List Nat} {me : Pid} {i j b c : Nat}

theorem Quiet.bread {s' : State} (h : Quiet s P me L) (hs : bread me ROOTDEV b s = .done (i, s')) :
    Quiet s' P me (i :: L) ∧ Holds s' me b i ∧ i ∉ L ∧ ∀ j, j ≠ i → s'.buf j = s.buf j := by
  obtain ⟨hcache, hh, hlock, _, hwait, hother⟩ := h.cache.bread hs
  refine ⟨⟨hcache, hwait.trans h.idle, fun k hk => ?_⟩, hh, fun hmem => ?_, hother⟩
  · by_cases hki : k = i
    · rw [hki, hh.lock, if_pos List.mem_cons_self]
    · rw [hother k hki, h.locks k hk]
      simp [hki]
  · rw [h.locks i hh.lt, if_pos hmem] at hlock
    exact absurd hlock (by simp)

theorem Quiet.bread_pinned (h : Quiet s P me L) (hb : b ∈ P)
    (hfree : ∀ k ∈ L, ¬ (s.buf k).caches ROOTDEV b) :
    ∃ i s', Bio.bread me ROOTDEV b s = .done (i, s') := by
  obtain ⟨k, hk, hck⟩ := h.cache.pinned b hb
  have hlock : (s.buf k).lock = none := by
    rw [h.locks k hk, if_neg fun hmem => hfree k hmem hck]
  exact ⟨k, bread_hit h.cache hk hck hlock me⟩

theorem Quiet.bwrite (h : Quiet s P me L) (hh : Holds s me b i) (v : Block) :
    ∃ s', bwrite me i (setData i v s) = .done s' ∧ Quiet s' P me L ∧ Holds s' me b i ∧
      ∀ j, j ≠ i → s'.buf j = s.buf j := by
  have hh' : Holds (setData i v s) me b i := Holds.setBuf hh.lt hh.caches hh.lock
  have hinv : CacheInv (setData i v s) P :=
    h.cache.setBuf_same hh.lt rfl rfl (h.cache.refcnt i hh.lt)
  rw [Bio.bwrite, if_pos hh'.lock]
  refine ⟨_, rfl, ⟨⟨hinv.order, hinv.keys, hinv.pinned, hinv.refcnt, hinv.waiting⟩, h.idle,
    fun k hk => ?_⟩, hh'.congr rfl, fun j hji => State.setBuf_ne _ _ hji⟩
  by_cases hki : k = i
  · rw [hki, ← h.locks i hh.lt, hh.lock]
    exact hh'.lock
  · rw [← h.locks k hk]
    exact congrArg Buf.lock (State.setBuf_ne _ _ hki)

theorem Quiet.bunpin (h : Quiet s P me L) (hh : Holds s me b i) (hb : b ∈ P) (hP : P.Nodup) :
    Quiet (bunpin i s) (P.erase b) me L := by
  refine ⟨h.cache.bunpin hh.lt hh.caches hb hP, h.idle, fun k hk => ?_⟩
  rw [← h.locks k hk]
  by_cases hki : k = i
  · subst hki
    simp [Bio.bunpin]
  · exact congrArg Buf.lock (State.setBuf_ne _ _ hki)

theorem Quiet.brelse (h : Quiet s P me L) (hh : Holds s me b i) (L' : List Nat)
    (hL : ∀ k, k ∈ L' ↔ k ∈ L ∧ k ≠ i) :
    ∃ s', brelse me i s = .done s' ∧ Quiet s' P me L' ∧ ∀ j, j ≠ i → s'.buf j = s.buf j := by
  obtain ⟨s', hs, hcache, _, hwait, hbuf⟩ := brelse_buf h.cache hh
  refine ⟨s', hs, ⟨hcache, hwait.trans h.idle, fun k hk => ?_⟩, fun j hji => ?_⟩
  · rw [hbuf]
    by_cases hki : k = i
    · subst hki
      rw [State.setBuf_self, if_neg fun hmem => ((hL k).mp hmem).2 rfl]
      rfl
    · rw [State.setBuf_ne _ _ hki, h.locks k hk]
      simp only [hL k, hki, ne_eq, not_false_eq_true, and_true]
  · rw [hbuf, State.setBuf_ne _ _ hji]

theorem Quiet.bread_bread (h : Quiet s P me []) (hP : P.length < NBUF) (hc : c ∈ P)
    (hne : c ≠ b) :
    ∃ i t j s', Bio.bread me ROOTDEV b s = .done (i, t) ∧ Bio.bread me ROOTDEV c t = .done (j, s') ∧
      Quiet s' P me [j, i] ∧ Holds s' me b i ∧ Holds s' me c j ∧ i ≠ j := by
  have hfree : ∀ k < NBUF, (s.buf k).lock = none := fun k hk => by simpa using h.locks k hk
  obtain ⟨i, t, h1⟩ := bread_returns h.cache hP hfree h.idle me b
  obtain ⟨ht, hi, _, _⟩ := h.bread h1
  obtain ⟨j, s', h2⟩ := ht.bread_pinned hc fun k hk hck => by
    obtain rfl : k = i := by simpa using hk
    exact hne (hck.2.symm.trans hi.caches.2)
  obtain ⟨hs', hj, hji, hother⟩ := ht.bread h2
  have hij : i ≠ j := fun heq => hji (by simp [heq])
  exact ⟨i, t, j, s', h1, h2, hs', hi.congr (hother i hij), hj, hij⟩

variable {start : Nat} {lh : List Nat} {t : Nat}

theorem writeLogBlock_returns (h : Quiet s P me []) (hP : P.length < NBUF)
    (hb : lh.getD t 0 ∈ P) (hne : lh.getD t 0 ≠ start + t + 1) :
    ∃ s', writeLogBlock me start lh t s = .done s' ∧ Quiet s' P me [] := by
  obtain ⟨dst, u, src, v, h1, h2, hv, hdst, hsrc, hds⟩ := h.bread_bread hP hb hne
  obtain ⟨w, h3, hw, hdst', hother⟩ := hv.bwrite hdst (v.buf src).data
  obtain ⟨x, h4, hx, hother'⟩ := hw.brelse (hsrc.congr (hother src hds.symm)) [dst]
    (by grind)
  obtain ⟨s', h5, hs', _⟩ := hx.brelse (hdst'.congr (hother' dst hds)) [] (by simp)
  refine ⟨s', ?_, hs'⟩
  simp only [writeLogBlock, h1, h2, h3, h4, h5, Outcome.done_bind]

theorem writeHead_returns (start : Nat) (lh : List Nat) (h : Quiet s P me [])
    (hP : P.length < NBUF) :
    ∃ s', writeHead me start lh s = .done s' ∧ Quiet s' P me [] := by
  have hfree : ∀ k < NBUF, (s.buf k).lock = none := fun k hk => by simpa using h.locks k hk
  obtain ⟨i, u, h1⟩ := bread_returns h.cache hP hfree h.idle me start
  obtain ⟨hu, hi, _, _⟩ := h.bread h1
  obtain ⟨v, h2, hv, hi', _⟩ := hu.bwrite hi (Log.fillHeader (u.buf i).data lh)
  obtain ⟨s', h3, hs', _⟩ := hv.brelse hi' [] (by simp)
  refine ⟨s', ?_, hs'⟩
  simp only [writeHead, h1, h2, h3, Outcome.done_bind]

theorem installBlock_returns (h : Quiet s P me []) (hP : P.length < NBUF) (hnodup : P.Nodup)
    (hb : lh.getD t 0 ∈ P) (hne : lh.getD t 0 ≠ start + t + 1) :
    ∃ s', installBlock me start lh t s = .done s' ∧ Quiet s' (P.erase (lh.getD t 0)) me [] := by
  obtain ⟨src, u, dst, v, h1, h2, hv, hsrc, hdst, hsd⟩ := h.bread_bread hP hb hne
  obtain ⟨w, h3, hw, hdst', hother⟩ := hv.bwrite hdst (v.buf src).data
  have hx := hw.bunpin hdst' hb hnodup
  have hsrc' : Holds (bunpin dst w) me (start + t + 1) src :=
    hsrc.congr ((State.setBuf_ne _ _ hsd).trans (hother src hsd))
  have hdst'' : Holds (bunpin dst w) me (lh.getD t 0) dst :=
    Holds.setBuf hdst'.lt hdst'.caches hdst'.lock
  obtain ⟨y, h4, hy, hother'⟩ := hx.brelse hsrc' [dst] (by grind)
  obtain ⟨s', h5, hs', _⟩ := hy.brelse (hdst''.congr (hother' dst hsd.symm)) [] (by simp)
  refine ⟨s', ?_, hs'⟩
  simp only [installBlock, h1, h2, h3, h4, h5, Outcome.done_bind]

theorem commit_returns (h : Quiet s lh me []) (hnodup : lh.Nodup) (hlen : lh.length < NBUF)
    (hout : ∀ b ∈ lh, Log.OutsideLog start lh.length b) :
    ∃ s', commit me start lh s = .done s' ∧ Quiet s' [] me [] := by
  have hne : ∀ t < lh.length, lh.getD t 0 ≠ start + t + 1 := fun t ht => by
    have := hout _ (Log.getD_mem_of_lt ht)
    unfold Log.OutsideLog at this
    omega
  rw [commit]
  split
  · obtain ⟨u, h1, hu⟩ := @Outcome.forRange_returns _ _ (writeLogBlock me start lh)
      (fun _ s => Quiet s lh me []) lh.length s
      (fun t ht v hv => writeLogBlock_returns hv hlen (Log.getD_mem_of_lt ht) (hne t ht)) h
    obtain ⟨v, h2, hv⟩ := writeHead_returns start lh hu hlen
    obtain ⟨w, h3, hw⟩ := @Outcome.forRange_returns _ _ (installBlock me start lh)
      (fun t s => Quiet s (lh.drop t) me []) lh.length v
      (fun t ht x hx => by
        have hdrop : (lh.drop t).length < NBUF := by rw [List.length_drop]; omega
        rw [← erase_drop ht]
        exact installBlock_returns hx hdrop (hnodup.sublist (List.drop_sublist t lh))
          (getD_mem_drop ht) (hne t ht)) hv
    rw [List.drop_length] at hw
    obtain ⟨s', h4, hs'⟩ := writeHead_returns start [] hw (by decide)
    refine ⟨s', ?_, hs'⟩
    simp only [writeLog, installTrans, h1, h2, h3, h4, Outcome.done_bind]
  · rename_i hn
    have hnil : lh = [] := List.eq_nil_of_length_eq_zero (by omega)
    exact ⟨s, rfl, hnil ▸ h⟩

theorem commit_noBuffers (h : Quiet s lh me []) (hnodup : lh.Nodup) (hlen : NBUF ≤ lh.length)
    (hout : ∀ b ∈ lh, Log.OutsideLog start lh.length b) :
    commit me start lh s = .fail .noBuffers := by
  have hpos : 0 < lh.length := Nat.lt_of_lt_of_le (by decide) hlen
  have hlog : start + 0 + 1 ∉ lh := fun hmem => by
    have := hout _ hmem
    unfold Log.OutsideLog at this
    omega
  have hfirst : writeLogBlock me start lh 0 s = .fail .noBuffers := by
    rw [writeLogBlock, bread_noBuffers h.cache hnodup hlen hlog, Outcome.fail_bind]
  rw [commit, if_pos hpos, writeLog, Outcome.forRange_fail hpos hfirst, Outcome.fail_bind]

end Room

/-- **The cache is one buffer too small for a full log.**  With exactly the logged blocks
    pinned and no other buffer in use, `commit` completes if and only if the log is not
    full; on a full log it panics for want of a buffer. -/
theorem commit_completes_iff {s : State} {me : Pid} {start : Nat} {lh : List Nat}
    (hpins : Quiet s lh me []) (hnodup : lh.Nodup) (hlen : lh.length ≤ LOGBLOCKS)
    (hout : ∀ b ∈ lh, Log.OutsideLog start lh.length b) :
    ((∃ s', commit me start lh s = .done s') ↔ lh.length < LOGBLOCKS) ∧
    (commit me start lh s = .fail .noBuffers ↔ lh.length = LOGBLOCKS) := by
  have hsize : NBUF = LOGBLOCKS := rfl
  rcases Nat.lt_or_ge lh.length LOGBLOCKS with hlt | hge
  · obtain ⟨s', hs', _⟩ := commit_returns hpins hnodup (hsize ▸ hlt) hout
    refine ⟨⟨fun _ => hlt, fun _ => ⟨s', hs'⟩⟩, fun hfail => ?_, fun heq => absurd hlt (by omega)⟩
    rw [hs'] at hfail
    exact absurd hfail (by simp)
  · have hfail := commit_noBuffers hpins hnodup (hsize ▸ hge) hout
    refine ⟨⟨fun ⟨s', hs'⟩ => ?_, fun hlt => absurd hge (by omega)⟩, fun _ => by omega,
      fun _ => hfail⟩
    rw [hfail] at hs'
    exact absurd hs' (by simp)

/-- A cache with the blocks of `lh` pinned in its first buffers. -/
def pinnedCache (lh : List Nat) : State where
  buf i := if i < lh.length then ⟨true, ROOTDEV, lh.getD i 0, none, 1, fun _ => 0⟩
    else ⟨false, 0, 0, none, 0, fun _ => 0⟩
  order := (List.range NBUF).reverse
  waiting := []
  disk _ := fun _ => 0

theorem quiet_pinnedCache (me : Pid) {lh : List Nat} (hnodup : lh.Nodup)
    (hlen : lh.length ≤ NBUF) : Quiet (pinnedCache lh) lh me [] := by
  refine ⟨⟨List.reverse_perm _, fun i _ j _ hdev hc => ?_, fun b hb => ?_, fun i _ => ?_,
    fun w hw => absurd hw (by simp [pinnedCache])⟩, rfl, fun k _ => ?_⟩
  · by_cases hi : i < lh.length <;> by_cases hj : j < lh.length
    · have hblock : lh[j] = lh[i] := by
        have hblock := hc.2
        simpa only [pinnedCache, if_pos hi, if_pos hj, List.getD, List.getElem?_eq_getElem hi,
          List.getElem?_eq_getElem hj, Option.getD_some] using hblock
      exact (hnodup.getElem_inj_iff.mp hblock).symm
    · have hd := hc.1
      simp [pinnedCache, hi, hj, ROOTDEV] at hd
    · simp [pinnedCache, hi] at hdev
    · simp [pinnedCache, hi] at hdev
  · obtain ⟨i, hi, rfl⟩ := List.mem_iff_getElem.mp hb
    exact ⟨i, by omega, by simp [pinnedCache, Buf.caches, hi, List.getD]⟩
  · by_cases hi : i < lh.length
    · have hmem : lh.getD i 0 ∈ lh := Log.getD_mem_of_lt hi
      simp only [pinnedCache, Buf.refs, if_pos hi, hmem, waitersOn, and_self, if_true,
        List.countP_nil]
    · simp [pinnedCache, hi, Buf.refs, waitersOn, ROOTDEV]
  · simp only [pinnedCache]
    split <;> simp

/-- Three operations that log ten blocks each, as `begin_op` and `log_write` admit, pin all
    of the cache. -/
theorem commit_panics_on_full_log :
    ¬ ∀ sys, Log.ReachableInBudget sys → ∀ s me start, Quiet s sys.log.lh me [] →
      (∀ b ∈ sys.log.lh, Log.OutsideLog start sys.log.lh.length b) →
      ∃ s', commit me start sys.log.lh s = .done s' := by
  intro hclaim
  have hnodup : Log.fullLog.log.lh.Nodup := by decide
  have hlen : Log.fullLog.log.lh.length = NBUF := by decide
  have hout : ∀ b ∈ Log.fullLog.log.lh, Log.OutsideLog 2 Log.fullLog.log.lh.length b := by
    unfold Log.OutsideLog
    decide
  have hquiet := quiet_pinnedCache 0 hnodup (le_of_eq hlen)
  obtain ⟨s', hs'⟩ := hclaim Log.fullLog Log.reachable_fullLog _ 0 2 hquiet hout
  rw [commit_noBuffers hquiet hnodup (le_of_eq hlen.symm) hout] at hs'
  exact absurd hs' (by simp)

/-- Two logged blocks leave room. -/
theorem commit_completes_iff_two_blocks :
    ((∃ s', commit 0 2 [40, 50] (pinnedCache [40, 50]) = .done s') ↔
      [40, 50].length < LOGBLOCKS) ∧
    (commit 0 2 [40, 50] (pinnedCache [40, 50]) = .fail .noBuffers ↔
      [40, 50].length = LOGBLOCKS) :=
  commit_completes_iff (quiet_pinnedCache 0 (by decide) (by decide)) (by decide) (by decide)
    (by unfold Log.OutsideLog; decide)

end Xv6.Bio
