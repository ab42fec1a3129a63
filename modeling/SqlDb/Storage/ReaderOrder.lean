import SqlDb.Storage.KV
import SqlDb.Storage.ReaderHeapRun

/-!
# The oldest reader, in two orders

The free list orders versions by the signed distance between them, so that the counter may
wrap. The heap of open readers orders them as plain numbers. Within half the counter's range
both agree as long as no wrap falls into it, and a wrap does harm only when an open reader from
before it is older than the durable version while another is from after it.
-/

namespace SqlDb

open ReaderHeap

/-! ## Versions in a window -/

/-- How far a version is from `base`, the counter wrapping. -/
def distance (base v : Nat) : Nat := (v + 2 ^ 64 - base) % 2 ^ 64

/-- Versions of `uint64_t` in the `2 ^ 63` values that start at `base`. -/
def InWindow (base v : Nat) : Prop := v < 2 ^ 64 ∧ distance base v < 2 ^ 63

section Window

variable {base a b c : Nat}

/-- **In a window the older version is the closer one.** -/
theorem versionBefore_iff_distance (hbase : base < 2 ^ 64) (ha : InWindow base a)
    (hb : InWindow base b) :
    versionBefore a b = true ↔ distance base a < distance base b := by
  obtain ⟨ha, hda⟩ := ha
  obtain ⟨hb, hdb⟩ := hb
  unfold distance at *
  rw [versionBefore, decide_eq_true_eq]
  omega

theorem notBefore_iff_distance (hbase : base < 2 ^ 64) (ha : InWindow base a)
    (hb : InWindow base b) : versionBefore a b = false ↔ distance base b ≤ distance base a := by
  rw [← Bool.not_eq_true, versionBefore_iff_distance hbase ha hb, not_lt]

/-- A version from before the wrap is older than all from after it. -/
theorem distance_wrapped (hbase : base < 2 ^ 64) (ha : InWindow base a) (hb : InWindow base b)
    (hc : InWindow base c) (hlt : distance base a < distance base b) (hba : b < a) (hcb : c ≤ b) :
    distance base a < distance base c := by
  obtain ⟨ha, hda⟩ := ha
  obtain ⟨hb, hdb⟩ := hb
  obtain ⟨hc, hdc⟩ := hc
  unfold distance at *
  omega

/-- Another reader in the window. -/
theorem inWindow_update {readers : OpenReaders} {r : Nat} (ha : InWindow base a)
    (h : ∀ q v, readers q = some v → InWindow base v) :
    ∀ q v, Function.update readers r (some a) q = some v → InWindow base v := by
  intro q v hq
  by_cases hqr : q = r
  · rw [hqr, Function.update_self] at hq
    rwa [← Option.some.inj hq]
  · rw [Function.update_of_ne hqr] at hq
    exact h q v hq

end Window

/-! ## The threshold of a transaction -/

/-- A threshold for pages that are released: it is not after any open reader's version nor the
durable one, so what was freed before it was freed before each of them. -/
structure GateSound (readers : OpenReaders) (durable base threshold : Nat) : Prop where
  notAfter : ∀ r v, readers r = some v → versionBefore v threshold = false
  durable : versionBefore durable threshold = false
  gate : ∀ freed, InWindow base freed → versionBefore freed threshold = true →
    ∀ r v, readers r = some v → versionBefore freed v = true

namespace KV

section MinReader

variable {kv : KV} {readers : OpenReaders} {base : Nat}

/-- The threshold is the heap's oldest reader, if that is older than the durable version. -/
theorem minReader_cases (ht : kv.readers.Tracks readers) :
    (kv.minReader = kv.durableVersion ∧ ∀ r v, readers r = some v →
      (∀ q w, readers q = some w → v ≤ w) → versionBefore v kv.durableVersion = false) ∨
    ∃ r v, readers r = some v ∧ (∀ q w, readers q = some w → v ≤ w) ∧ kv.minReader = v ∧
      versionBefore v kv.durableVersion = true := by
  obtain ⟨hnone, hsome⟩ := ht.min
  unfold minReader
  cases hmin : kv.readers.min with
  | none =>
      refine Or.inl ⟨rfl, fun r v hr => ?_⟩
      rw [hnone.mp hmin r] at hr
      cases hr
  | some oldest =>
      obtain ⟨v, hv, hleast⟩ := hsome oldest hmin
      dsimp only
      rw [ht.version oldest v hv]
      by_cases hbefore : versionBefore v kv.durableVersion = true
      · rw [if_pos hbefore]
        exact Or.inr ⟨oldest, v, hv, hleast, rfl, hbefore⟩
      · rw [if_neg hbefore]
        refine Or.inl ⟨rfl, fun r w hr hw => ?_⟩
        rw [Nat.le_antisymm (hw oldest v hv) (hleast r w hr)]
        exact eq_false_of_ne_true hbefore

/-- **When the threshold is sound**: no open reader that is older than the durable version has a
larger number than a younger reader has. -/
theorem begin_gate_sound (ht : kv.readers.Tracks readers) (hbase : base < 2 ^ 64)
    (hreaders : ∀ r v, readers r = some v → InWindow base v)
    (hdurable : InWindow base kv.durableVersion) (file : File) :
    GateSound readers kv.durableVersion base (kv.begin file).free.minReader ↔
      ∀ r v q w, readers r = some v → readers q = some w → versionBefore v w = true →
        versionBefore v kv.durableVersion = true → v ≤ w := by
  show GateSound readers kv.durableVersion base kv.minReader ↔ _
  constructor
  · intro hgate r v q w hr hq hvw hvd
    by_contra hlt
    have hv := hreaders r v hr
    have hw := hreaders q w hq
    have hfirst := hgate.notAfter r v hr
    rcases minReader_cases ht with ⟨hmin, _⟩ | ⟨o, m, ho, hleast, hmin, _⟩
    · rw [hmin, hvd] at hfirst
      cases hfirst
    · -- the least number is from after the wrap too
      rw [hmin, notBefore_iff_distance hbase hv (hreaders o m ho)] at hfirst
      have := distance_wrapped hbase hv hw (hreaders o m ho)
        ((versionBefore_iff_distance hbase hv hw).mp hvw) (not_le.mp hlt) (hleast q w hq)
      omega
  · intro hcond
    -- of the readers older than the durable version, none is older than the one with the least number
    have hfirst : ∀ r v o m, readers r = some v → readers o = some m →
        (∀ q w, readers q = some w → m ≤ w) →
        distance base v < distance base kv.durableVersion → distance base m ≤ distance base v := by
      intro r v o m hr ho hleast hvd
      by_contra hlt
      have hwv := hreaders r v hr
      have hle := hcond r v o m hr ho
        ((versionBefore_iff_distance hbase hwv (hreaders o m ho)).mpr (not_le.mp hlt))
        ((versionBefore_iff_distance hbase hwv hdurable).mpr hvd)
      rw [Nat.le_antisymm hle (hleast r v hr)] at hlt
      exact hlt (le_refl _)
    have hthreshold : InWindow base kv.minReader ∧
        versionBefore kv.durableVersion kv.minReader = false ∧
        ∀ r v, readers r = some v → versionBefore v kv.minReader = false := by
      rcases minReader_cases ht with ⟨hmin, hno⟩ | ⟨o, m, ho, hleast, hmin, hbefore⟩
      · rw [hmin, notBefore_iff_distance hbase hdurable hdurable]
        refine ⟨hdurable, le_refl _, fun r v hr => ?_⟩
        rw [notBefore_iff_distance hbase (hreaders r v hr) hdurable]
        by_contra hlt
        obtain ⟨o, ho⟩ := Option.ne_none_iff_exists'.mp fun h => by
          rw [ht.min.1.mp h r] at hr
          cases hr
        obtain ⟨m, hm, hleast⟩ := ht.min.2 o ho
        have hmd := hno o m hm hleast
        rw [notBefore_iff_distance hbase (hreaders o m hm) hdurable] at hmd
        have := hfirst r v o m hr hm hleast (not_le.mp hlt)
        omega
      · have hwm := hreaders o m ho
        have hmd := (versionBefore_iff_distance hbase hwm hdurable).mp hbefore
        rw [hmin, notBefore_iff_distance hbase hdurable hwm]
        refine ⟨hwm, hmd.le, fun r v hr => ?_⟩
        rw [notBefore_iff_distance hbase (hreaders r v hr) hwm]
        by_contra hlt
        exact hlt (hfirst r v o m hr ho hleast ((not_le.mp hlt).trans hmd))
    obtain ⟨hwindow, hdur, hall⟩ := hthreshold
    refine ⟨hall, hdur, fun freed hfreed hgate r v hr => ?_⟩
    have hwv := hreaders r v hr
    have hle := (notBefore_iff_distance hbase hwv hwindow).mp (hall r v hr)
    have hlt := (versionBefore_iff_distance hbase hfreed hwindow).mp hgate
    exact (versionBefore_iff_distance hbase hfreed hwv).mpr (hlt.trans_le hle)

/-- The versions of two readers on either side of the wrap. -/
def wrapReaders : OpenReaders :=
  Function.update (Function.update (fun _ => none) 1 (some (2 ^ 64 - 1))) 2 (some 0)

theorem wrapReaders_tracked : ∃ heap : ReaderHeap, heap.Tracks wrapReaders := by
  obtain ⟨heap, _, ht, _⟩ := tracks_of_history
    ((ReaderHistory.nil.snoc (.push 1 (2 ^ 64 - 1)) rfl).snoc (.push 2 0) rfl)
    (.of_length (by decide))
  exact ⟨heap, ht⟩

theorem wrapReaders_inWindow : ∀ r v, wrapReaders r = some v → InWindow (2 ^ 64 - 2) v := by
  refine inWindow_update ?_ (inWindow_update ?_ fun _ _ h => (Option.some_ne_none _ h.symm).elim) <;>
    unfold InWindow distance <;> omega

theorem wrapReaders_cases {r v : Nat} (h : wrapReaders r = some v) : v = 2 ^ 64 - 1 ∨ v = 0 := by
  unfold wrapReaders at h
  by_cases h2 : r = 2
  · rw [h2, Function.update_self, Option.some.injEq] at h
    exact Or.inr h.symm
  · rw [Function.update_of_ne h2] at h
    by_cases h1 : r = 1
    · rw [h1, Function.update_self, Option.some.injEq] at h
      exact Or.inl h.symm
    · rw [Function.update_of_ne h1] at h
      cases h

/-- With readers on either side of the wrap the threshold is sound as long as the durable version is
not after the one from before it. -/
theorem begin_gate_sound_wrap : ∃ heap : ReaderHeap, ∀ durable, InWindow (2 ^ 64 - 2) durable →
    ∀ file : File, GateSound wrapReaders durable (2 ^ 64 - 2)
        (KV.begin { readers := heap, durableVersion := durable } file).free.minReader ↔
      versionBefore (2 ^ 64 - 1) durable = false := by
  obtain ⟨heap, ht⟩ := wrapReaders_tracked
  refine ⟨heap, fun durable hdurable file => ?_⟩
  have ht' : (KV.readers { readers := heap, durableVersion := durable }).Tracks wrapReaders := ht
  refine (begin_gate_sound ht' (by decide) wrapReaders_inWindow hdurable file).trans
    ⟨fun h => ?_, fun h r v q w hr hq hvw hvd => ?_⟩
  · refine eq_false_of_ne_true fun hbefore => ?_
    exact absurd (h 1 (2 ^ 64 - 1) 2 0 rfl rfl (by decide) hbefore) (by decide)
  · rcases wrapReaders_cases hr with rfl | rfl
    · rw [h] at hvd
      cases hvd
    · exact Nat.zero_le w

/-- The heap takes the reader of version 0 for the oldest one, and the threshold is after the other
reader's version, `2 ^ 64 - 1`. -/
theorem begin_gate_not_sound : ¬ ∀ (kv : KV) (readers : OpenReaders) (base : Nat),
    kv.readers.Tracks readers → base < 2 ^ 64 → (∀ r v, readers r = some v → InWindow base v) →
    InWindow base kv.durableVersion → ∀ file : File,
      GateSound readers kv.durableVersion base (kv.begin file).free.minReader := by
  intro h
  obtain ⟨heap, ht⟩ := wrapReaders_tracked
  have hgate := h { readers := heap, durableVersion := 1 } _ (2 ^ 64 - 2) ht (by decide)
    wrapReaders_inWindow (show InWindow _ 1 by unfold InWindow distance; omega) .empty
  have hmin : minReader { readers := heap, durableVersion := 1 } = 0 := by
    have ht' : (KV.readers { readers := heap, durableVersion := 1 }).Tracks _ := ht
    rcases minReader_cases ht' with ⟨_, hno⟩ | ⟨o, m, ho, hleast, hmin, _⟩
    · have hnot := hno 2 0 rfl fun _ _ _ => Nat.zero_le _
      exact absurd hnot (show ¬ versionBefore 0 1 = false by decide)
    · rw [hmin]
      exact Nat.le_zero.mp (hleast 2 0 rfl)
  have hfirst := hgate.notAfter 1 (2 ^ 64 - 1) rfl
  change versionBefore _ (minReader { readers := heap, durableVersion := 1 }) = false at hfirst
  rw [hmin] at hfirst
  exact absurd hfirst (by decide)

end MinReader

end KV

end SqlDb
