import Xv6.Fs.Directory

/-!
# Path resolution

`skipelem` cuts a path into its elements, and `namex` looks them up one after another.
-/

namespace Xv6.Fs

open ByteView Hoare

/-! ### The elements of a path -/

/-- **The elements of a path**: its maximal runs of characters other than `'/'`. -/
def elements (path : List UInt8) : List (List UInt8) :=
  (path.splitOnP (· == slash)).filter fun run => !run.isEmpty

section Elements

variable {path run rest e : List UInt8} {es : List (List UInt8)}

theorem elements_slash (path : List UInt8) : elements (slash :: path) = elements path := by
  have hsplit : (([] : List UInt8) ++ slash :: path).splitOnP (· == slash) =
      [] :: path.splitOnP (· == slash) :=
    List.splitOnP_append_cons_of_forall_mem nofun slash (by decide) path
  rw [List.nil_append] at hsplit
  unfold elements
  rw [hsplit]
  rfl

theorem elements_run (hne : run ≠ []) (hrun : ∀ c ∈ run, c ≠ slash) :
    elements (run ++ slash :: rest) = run :: elements rest := by
  unfold elements
  rw [List.splitOnP_append_cons_of_forall_mem (fun c hc => by simpa using hrun c hc) slash
    (by decide), List.filter_cons, if_pos (by simpa using hne)]

theorem elements_last (hne : run ≠ []) (hrun : ∀ c ∈ run, c ≠ slash) : elements run = [run] := by
  unfold elements
  rw [List.splitOnP_eq_singleton fun c hc => by simpa using hrun c hc, List.filter_cons,
    if_pos (by simpa using hne), List.filter_nil]

theorem elements_dropWhile (path : List UInt8) :
    elements (path.dropWhile (· == slash)) = elements path := by
  induction path with
  | nil => rfl
  | cons c path ih =>
    rw [List.dropWhile_cons]
    split
    · rename_i hc
      rw [eq_of_beq hc, elements_slash, ih]
    · rfl

theorem elements_cons {c : UInt8} {s : List UInt8} (hc : c ≠ slash) :
    elements (c :: s) = (c :: s).takeWhile (· != slash) ::
      elements ((c :: s).dropWhile (· != slash)) := by
  have hrun : ∀ b ∈ (c :: s).takeWhile (· != slash), b ≠ slash := fun b hb => by
    simpa using List.mem_takeWhile_imp hb
  have hne : (c :: s).takeWhile (· != slash) ≠ [] := by
    rw [List.takeWhile_cons, if_pos (by simpa using hc)]
    exact List.cons_ne_nil _ _
  conv => lhs; rw [← List.takeWhile_append_dropWhile (p := (· != slash)) (l := c :: s)]
  cases hrest : (c :: s).dropWhile (· != slash) with
  | nil =>
    rw [List.append_nil, elements_last hne hrun]
    rfl
  | cons b rest =>
    have hb : b = slash := by
      have hhead := List.head?_dropWhile_not (· != slash) (c :: s)
      rw [hrest] at hhead
      simpa using hhead
    rw [hb, elements_run hne hrun, elements_slash]

theorem ne_slash_of_dropWhile {c : UInt8} {s : List UInt8}
    (h : path.dropWhile (· == slash) = c :: s) : c ≠ slash := by
  have hhead := List.head?_dropWhile_not (· == slash) path
  rw [h] at hhead
  simpa using hhead

theorem elements_eq_nil_of_dropWhile (h : elements (path.dropWhile (· == slash)) = []) :
    path.dropWhile (· == slash) = [] := by
  cases hdrop : path.dropWhile (· == slash) with
  | nil => rfl
  | cons c s =>
    rw [hdrop, elements_cons (ne_slash_of_dropWhile hdrop)] at h
    exact absurd h (List.cons_ne_nil _ _)

/-- **`skipelem`** takes the first element of the path, and returns an empty rest if it is the
    last one. -/
theorem skipelem_elements (path : List UInt8) : match elements path with
    | [] => skipelem path = none
    | e :: es => ∃ rest, skipelem path = some (elemName e, rest) ∧ elements rest = es ∧
        (rest = [] ↔ es = []) := by
  rw [← elements_dropWhile, skipelem]
  cases hdrop : path.dropWhile (· == slash) with
  | nil => rfl
  | cons c s =>
    rw [elements_cons (ne_slash_of_dropWhile hdrop)]
    refine ⟨_, rfl, elements_dropWhile _, fun hnil => ?_, fun hnil => ?_⟩
    · rw [← elements_dropWhile, hnil]
      rfl
    · rw [← elements_dropWhile] at hnil
      exact elements_eq_nil_of_dropWhile hnil

/-- What repeated calls of `skipelem` return. -/
def skipelems : Nat → List UInt8 → List (Name × List UInt8)
  | 0, _ => []
  | fuel + 1, path =>
    match skipelem path with
    | none => []
    | some (name, rest) => (name, rest) :: skipelems fuel rest

theorem skipelems_eq (fuel : Nat) (path : List UInt8) (hfuel : (elements path).length ≤ fuel) :
    (skipelems fuel path).map Prod.fst = (elements path).map elemName ∧
    ∀ k, (h : k < (skipelems fuel path).length) →
      (((skipelems fuel path).get ⟨k, h⟩).2 = [] ↔ k + 1 = (skipelems fuel path).length) := by
  induction fuel generalizing path with
  | zero =>
    rw [List.eq_nil_of_length_eq_zero (Nat.le_zero.mp hfuel)]
    exact ⟨rfl, fun k h => absurd h (Nat.not_lt_zero k)⟩
  | succ fuel ih =>
    have hskip := skipelem_elements path
    cases hes : elements path with
    | nil =>
      rw [hes] at hskip
      rw [skipelems, hskip]
      exact ⟨rfl, fun k h => absurd h (Nat.not_lt_zero k)⟩
    | cons e es =>
      rw [hes] at hskip hfuel
      obtain ⟨rest, hskip, hrest, hlast⟩ := hskip
      rw [skipelems, hskip]
      dsimp only
      have hlen := Nat.le_of_succ_le_succ hfuel
      obtain ⟨hmap, hends⟩ := ih rest (by rw [hrest]; exact hlen)
      refine ⟨by rw [List.map_cons, hmap, hrest, List.map_cons], fun k hk => ?_⟩
      cases k with
      | zero =>
        have hlength := congrArg List.length hmap
        rw [List.length_map, List.length_map, hrest] at hlength
        show rest = [] ↔ _
        rw [hlast, ← List.length_eq_zero_iff, List.length_cons, hlength]
        omega
      | succ k =>
        have hk' : k < (skipelems fuel rest).length := Nat.lt_of_succ_lt_succ hk
        rw [List.get_cons_succ, hends k hk', List.length_cons]
        omega

theorem elements_split (path : List UInt8) : elements path = [] ∨
    ∃ before run rest, path = before ++ (run ++ rest) ∧ run ≠ [] ∧
      elements path = run :: elements rest := by
  rw [← elements_dropWhile]
  cases hdrop : path.dropWhile (· == slash) with
  | nil => exact Or.inl rfl
  | cons c s =>
    have hc := ne_slash_of_dropWhile hdrop
    refine Or.inr ⟨path.takeWhile (· == slash), (c :: s).takeWhile (· != slash),
      (c :: s).dropWhile (· != slash), ?_, ?_, elements_cons hc⟩
    · rw [List.takeWhile_append_dropWhile, ← hdrop, List.takeWhile_append_dropWhile]
    · rw [List.takeWhile_cons, if_pos (by simpa using hc)]
      exact List.cons_ne_nil _ _

theorem elements_bounds (path : List UInt8) :
    (elements path).length ≤ path.length ∧ ∀ e ∈ elements path, e ⊆ path := by
  induction hn : path.length using Nat.strongRecOn generalizing path with
  | _ n ih =>
    rcases elements_split path with hnil | ⟨before, run, rest, rfl, hne, hcons⟩
    · rw [hnil]
      exact ⟨Nat.zero_le _, nofun⟩
    · have hpos := List.length_pos_iff.mpr hne
      rw [List.length_append, List.length_append] at hn
      obtain ⟨hlen, hsub⟩ := ih rest.length (by omega) rest rfl
      rw [hcons, List.length_cons]
      refine ⟨by omega, fun e he c hc => ?_⟩
      rw [List.mem_append, List.mem_append]
      rcases List.mem_cons.mp he with rfl | he
      · exact Or.inr (Or.inl hc)
      · exact Or.inr (Or.inr (hsub e he hc))

theorem nameOf_elemName (h : 0 ∉ e) : nameOf (elemName e) = e.take DIRSIZ := by
  have hmap : (List.range' 0 DIRSIZ).map (elemName e) =
      e.take DIRSIZ ++ List.replicate (DIRSIZ - (e.take DIRSIZ).length) 0 := by
    refine List.ext_getElem (by simp) fun k hk hk' => ?_
    rw [List.length_map, List.length_range'] at hk
    rw [List.getElem_map, List.getElem_range', elemName, Nat.zero_add, Nat.one_mul, if_pos hk]
    by_cases hlt : k < e.length
    · rw [List.getElem_append_left (by rw [List.length_take]; omega), List.getElem_take,
        List.getD_eq_getElem _ _ hlt]
    · rw [List.getElem_append_right (by rw [List.length_take]; omega), List.getElem_replicate,
        List.getD_eq_default _ _ (Nat.not_lt.mp hlt)]
  have hall : ∀ c ∈ e.take DIRSIZ, (c != 0) = true := fun c hc => by
    simpa using fun hz : c = 0 => h (hz ▸ List.mem_of_mem_take hc)
  rw [nameOf, hmap, List.takeWhile_append_of_pos hall, List.takeWhile_replicate]
  simp

end Elements

/-! ### Looking up the elements -/

section Resolution

variable (sb : Superblock) (d : Disk)

/-- Inode `i` can be searched: it is a directory and has links. -/
def Searchable (i : Nat) : Prop := (dinodeAt sb d i).type = T_DIR ∧ (dinodeAt sb d i).nlink ≠ 0

instance (i : Nat) : Decidable (Searchable sb d i) := inferInstanceAs (Decidable (_ ∧ _))

/-- The inode that inode `i` has under a name, if `i` can be searched. -/
def search (i : Nat) (nm : List UInt8) : Option Nat :=
  if Searchable sb d i then (dirMap (dinodeAt sb d i) d nm).map Prod.fst else none

/-- **Path resolution**: the names are looked up one after another, from inode `i` on. -/
def resolve (i : Nat) : List (List UInt8) → Option Nat
  | [] => some i
  | nm :: nms => (search sb d i nm).bind fun j => resolve j nms

/-- The directory that the last of the names is to be looked up in. -/
def resolveParent (i : Nat) (nms : List (List UInt8)) : Option Nat :=
  if nms = [] then none
  else (resolve sb d i nms.dropLast).filter fun j => decide (Searchable sb d j)

/-- What `namex` is to find. -/
def target (parent : Bool) (i : Nat) (nms : List (List UInt8)) : Option Nat :=
  if parent then resolveParent sb d i nms else resolve sb d i nms

variable {sb d} {i : Nat} {nm : List UInt8} {nms : List (List UInt8)}

theorem target_nil (parent : Bool) :
    target sb d parent i [] = if parent then none else some i := rfl

theorem target_cons {parent : Bool} (hmore : parent = true → nms ≠ []) :
    target sb d parent i (nm :: nms) =
      (search sb d i nm).bind fun j => target sb d parent j nms := by
  cases parent with
  | false => rfl
  | true =>
    have hne := hmore rfl
    simp only [target, if_true, resolveParent]
    rw [if_neg (List.cons_ne_nil _ _), List.dropLast_cons_of_ne_nil hne, resolve]
    cases search sb d i nm with
    | none => rfl
    | some j => rw [Option.bind_some, Option.bind_some, if_neg hne]

theorem target_last : target sb d true i [nm] = if Searchable sb d i then some i else none := by
  simp only [target, if_true, resolveParent]
  rw [if_neg (List.cons_ne_nil _ _)]
  show (some i).filter _ = _
  by_cases hs : Searchable sb d i
  · simp [hs]
  · simp [hs]

theorem target_of_not_searchable (parent : Bool) (h : ¬ Searchable sb d i) :
    target sb d parent i (nm :: nms) = none := by
  by_cases hlast : parent = true ∧ nms = []
  · obtain ⟨rfl, rfl⟩ := hlast
    rw [target_last, if_neg h]
  · rw [target_cons fun hp hnil => hlast ⟨hp, hnil⟩, search, if_neg h]
    rfl

end Resolution

section Namex

variable {sb : Superblock} {first ip dp cwd : Nat} {s s' s₀ : State} {E : Stop → Prop}

/-- **What `namex` leaves behind**: a reference to the inode that it was to find, and nothing
    else. -/
def Resolved (sb : Superblock) (first : Nat) (s₀ : State) (found : Option Nat) (r : Option Nat)
    (s : State) : Prop :=
  match found with
  | none => r = none ∧ Released sb first s₀ s
  | some i => ∃ ip, r = some ip ∧ (s.inode ip).inum = i ∧ Held sb first s₀ ip false s

theorem Held.wp_iput (h : Held sb first s₀ ip false s) :
    wp (iput sb ip) E (fun _ => Released sb first s₀) s := by
  refine wp_mono (wp_iput_eq fun ⟨hone, hvalid, hnlink⟩ => ?_) fun _ t ht => ?_
  · rw [h.consistent.cached.copy ip ⟨h.lt, h.ref_pos, hvalid⟩, h.disk] at hnlink
    rw [h.ref, oneRef_self] at hone
    exact h.links (by omega) hnlink
  · subst ht
    refine h.toTaken.setInode h.lt h.ref_pos _ rfl (fun _ hvalid =>
      h.consistent.cached.entry ⟨h.lt, h.ref_pos, hvalid⟩) ?_ (h.lock ip) (fun j hj => ?_) fun j _ => ?_
    · rw [h.ref, oneRef_self]
      rfl
    · rw [oneRef_of_ne hj]
    · rfl

theorem Held.wp_iunlock (h : Held sb first s₀ ip true s) :
    wp (iunlock ip) E (fun _ s' => Held sb first s₀ ip false s' ∧
      (s'.inode ip).inum = (s.inode ip).inum) s := by
  have hlock : (s.inode ip).lock = true := by
    rw [h.lock, oneLock_self, Bool.or_true]
  refine wp_mono (wp_iunlock_eq h.ref_pos hlock) fun _ t ht => ?_
  subst ht
  refine ⟨⟨h.toTaken.setInode h.lt h.ref_pos _ rfl (fun _ hvalid =>
    h.consistent.cached.entry ⟨h.lt, h.ref_pos, hvalid⟩) (h.ref ip) ?_ (fun _ _ => rfl)
    (fun j hj => ?_), h.lt, nofun, nofun, ?_, ?_, fun hzero => ?_⟩, by rw [State.setInode_self]⟩
  · rw [h.unlocked rfl]
    rfl
  · rw [oneLock_of_ne hj, oneLock_of_ne hj]
  all_goals rw [State.setInode_self]
  · exact h.inum_lt
  · exact h.live
  · exact h.links hzero

theorem Held.wp_search (htree : Tree sb s₀.disk) (hfull : ¬ Room s₀ → E (.panic .igetNoInodes))
    (h : Held sb first s₀ dp true s) (hdir : Searchable sb s₀.disk (s.inode dp).inum)
    (name : Name) :
    wp (dirlookup sb dp name) E (fun r s' =>
      match search sb s₀.disk (s.inode dp).inum (nameOf name) with
      | none => r = none ∧ s' = s
      | some i => Linked sb s₀.disk i ∧ ∃ ip off, r = some (ip, off) ∧ Got s i ip s') s := by
  have hlink : Linked sb s₀.disk (s.inode dp).inum := ⟨h.inum_lt, h.live, hdir.2⟩
  have hwhole := htree.whole _ hlink hdir.1
  rw [search, if_pos hdir]
  refine wp_mono (wp_dirlookup_dirMap (h.consistent.dense h.ready) (by rw [h.copy]; exact hdir.1)
    (by rw [h.copy]; exact hwhole) name fun _ hall => hfull fun hroom =>
      h.exists_free hroom hall) fun r t ht => ?_
  rw [h.copy, h.disk] at ht
  cases hmap : dirMap (dinodeAt sb s₀.disk (s.inode dp).inum) s₀.disk (nameOf name) with
  | none =>
    rw [hmap] at ht
    exact ht
  | some found =>
    rw [hmap] at ht
    obtain ⟨ip, rfl, hgot⟩ := ht
    obtain ⟨k, hk, hused, hfound⟩ := exists_slot_of_dirMap hmap
    refine ⟨?_, ip, _, rfl, hgot⟩
    rw [hfound]
    exact htree.entries _ hlink hdir.1 k hk hused

theorem wp_namexFrom_resolve (parent : Bool) (htree : Tree sb s₀.disk)
    (hwait : ∀ j, (s₀.inode j).lock = true → E .asleep)
    (hfull : ¬ Room s₀ → E (.panic .igetNoInodes)) (fuel : Nat)
    (h : Held sb first s₀ ip false s) (path : List UInt8) (name : Name)
    (hnul : ∀ e ∈ elements path, 0 ∉ e) (hfuel : (elements path).length < fuel) :
    wp (namexFrom sb parent fuel ip path name) E (fun r s' =>
      Resolved sb first s₀ (target sb s₀.disk parent (s.inode ip).inum
        ((elements path).map (List.take DIRSIZ))) r.1 s' ∧
      (parent = true → r.1 ≠ none →
        (elements path).getLast?.map (List.take DIRSIZ) = some (nameOf r.2))) s := by
  induction fuel generalizing ip s path name with
  | zero => exact absurd hfuel (Nat.not_lt_zero _)
  | succ fuel ih =>
    unfold namexFrom
    have hskip := skipelem_elements path
    cases hes : elements path with
    | nil =>
      rw [hes] at hskip
      rw [hskip]
      dsimp only
      rw [List.map_nil, target_nil, wp_ite]
      refine ⟨fun hparent => ?_, fun hparent => ?_⟩
      · rw [wp_bind, if_pos hparent]
        exact wp_mono h.wp_iput fun _ t ht => ⟨⟨rfl, ht⟩, fun _ hne => absurd rfl hne⟩
      · rw [if_neg hparent]
        exact ⟨⟨ip, rfl, rfl, h⟩, fun hp => absurd hp hparent⟩
    | cons e es =>
      rw [hes] at hskip hnul hfuel
      obtain ⟨rest, hskip, hrest, hlast⟩ := hskip
      have hname : nameOf (elemName e) = e.take DIRSIZ := nameOf_elemName (hnul e List.mem_cons_self)
      rw [hskip, List.map_cons]
      dsimp only
      rw [wp_bind]
      refine wp_mono (h.wp_ilock (hwait ip)) ?_
      rintro _ t ⟨ht, hinum⟩
      rw [← hinum]
      simp only [wp_bind, wp_get]
      rw [ht.copy]
      have hfail : ¬ Searchable sb s₀.disk (t.inode ip).inum →
          wp (iunlockput sb ip) E (fun _ u => wp (pure (none, elemName e)) E (fun r s' =>
            Resolved sb first s₀ (target sb s₀.disk parent (t.inode ip).inum
              (e.take DIRSIZ :: es.map (List.take DIRSIZ))) r.1 s' ∧
            (parent = true → r.1 ≠ none →
              (e :: es).getLast?.map (List.take DIRSIZ) = some (nameOf r.2))) u) t :=
        fun hnot => by
          rw [target_of_not_searchable parent hnot]
          exact wp_mono ht.wp_iunlockput fun _ u hu => ⟨⟨rfl, hu⟩, fun _ hne => absurd rfl hne⟩
      rw [wp_ite]
      refine ⟨fun htype => ?_, fun htype => ?_⟩
      · rw [wp_bind]
        exact hfail fun hs => htype hs.1
      rw [wp_ite]
      refine ⟨fun hnlink => ?_, fun hnlink => ?_⟩
      · rw [wp_bind]
        exact hfail fun hs => hs.2 hnlink
      have hdir : Searchable sb s₀.disk (t.inode ip).inum := ⟨not_not.mp htype, hnlink⟩
      rw [wp_ite]
      refine ⟨fun hstop => ?_, fun hgo => ?_⟩
      · -- one level early
        obtain ⟨rfl, hnil⟩ := hstop
        rw [hlast.mp hnil, List.map_nil, target_last, if_pos hdir, wp_bind]
        refine wp_mono ht.wp_iunlock ?_
        rintro _ u ⟨hu, huinum⟩
        refine ⟨⟨ip, rfl, huinum, hu⟩, fun _ _ => ?_⟩
        rw [hname]
        rfl
      have hmore : parent = true → es ≠ [] := fun hp hnil => hgo ⟨hp, hlast.mpr hnil⟩
      rw [target_cons fun hp hnil => hmore hp (List.map_eq_nil_iff.mp hnil), wp_bind, ← hname]
      refine wp_mono (ht.wp_search htree hfull hdir (elemName e)) fun r u hu => ?_
      cases hfound : search sb s₀.disk (t.inode ip).inum (nameOf (elemName e)) with
      | none =>
        rw [hfound] at hu
        obtain ⟨rfl, rfl⟩ := hu
        rw [wp_bind]
        exact wp_mono ht.wp_iunlockput fun _ v hv => ⟨⟨rfl, hv⟩, fun _ hne => absurd rfl hne⟩
      | some i =>
        rw [hfound] at hu
        obtain ⟨hlink, next, off, rfl, hgot⟩ := hu
        rw [wp_bind]
        refine wp_mono (ht.wp_next hlink hgot) ?_
        rintro _ v ⟨hv, hvinum⟩
        refine wp_mono (ih hv rest (elemName e) (fun e' he' => hnul e' ?_) ?_) fun r w hw => ?_
        · rw [hrest] at he'
          exact List.mem_cons_of_mem e he'
        · rw [hrest]
          exact Nat.lt_of_succ_lt_succ hfuel
        · rw [hrest, hvinum] at hw
          refine ⟨hw.1, fun hp hne => ?_⟩
          rw [List.getLast?_cons_of_ne_nil (hmore hp)]
          exact hw.2 hp hne

/-- Why `namex` does not return: an inode is locked by another process, or `itable` is full. -/
def NamexStops (s₀ : State) (e : Stop) : Prop :=
  (e = .asleep ∧ ∃ j, (s₀.inode j).lock = true) ∨ (e = .panic .igetNoInodes ∧ ¬ Room s₀)

/-- The root directory is made, and linked under the name `"a"`. -/
def linkedRootOps : List Op :=
  [.beginOp, .ialloc T_DIR, .ilock 0, .iupdate 0 0 0 1, .dirlink 0 (elemName [97]) ROOTINO,
    .iunlock 0, .endOp]

def linkedRoot : State := linkedRootOps.foldl after boot

theorem linkedRoot_consistent : Consistent Mkfs.sb Mkfs.nmeta linkedRoot := by
  simp only [linkedRoot, linkedRootOps, List.foldl_cons, List.foldl_nil]
  have h₁ := boot_consistent.after .beginOp trivial (by decide)
  have h₂ := h₁.after (.ialloc T_DIR) trivial (by decide)
  have h₃ := h₂.after (.ilock 0) ⟨by decide, by decide⟩ (by decide)
  have h₄ := h₃.after (.iupdate 0 0 0 1) ⟨by decide, by decide, by decide⟩
    (by decide)
  have h₅ := h₄.after (.dirlink 0 (elemName [97]) ROOTINO)
    ⟨by decide, by decide, by decide⟩ (by decide)
  have h₆ := h₅.after (.iunlock 0) (by decide : 0 < NINODE) (by decide)
  exact h₆.after .endOp trivial (by decide)

theorem linkedRoot_tree : Tree Mkfs.sb linkedRoot.disk := by
  have hlive : ∀ i < Mkfs.sb.ninodes, (dinodeAt Mkfs.sb linkedRoot.disk i).type ≠ 0 →
      i = ROOTINO := by
    decide +kernel
  have hsize : (dinodeAt Mkfs.sb linkedRoot.disk ROOTINO).size = 16 := by decide +kernel
  have hroot : Linked Mkfs.sb linkedRoot.disk ROOTINO :=
    ⟨by decide, by decide +kernel, by decide +kernel⟩
  have hentry : direntInum (direntAt (dinodeAt Mkfs.sb linkedRoot.disk ROOTINO) linkedRoot.disk 0) =
      ROOTINO := by
    decide +kernel
  generalize linkedRoot = s at *
  refine ⟨hroot, fun i hi _ => ?_, fun i hi _ k hk _ => ?_⟩
  · rw [hlive i hi.lt hi.live, hsize]
    rfl
  · rw [hlive i hi.lt hi.live] at hk ⊢
    rw [hsize] at hk
    have hzero : k = 0 := Nat.lt_one_iff.mp hk
    rw [hzero, hentry]
    exact hroot

end Namex

end Xv6.Fs
