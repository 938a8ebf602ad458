import NodeRanking.DecisionMatrix
import NodeRanking.Proofs.PowerCurve

/-!
# Laws of measuring

1. The usages of what a node can give are numbers up to the size of a word (`unsigned_usage`,
   `height_usage_le`), in the order of what is requested (`usage_mono`).
2. A node is `Lighter` than another one that can give the same if it carries no more. Booking the
   same on both keeps that, and so does booking on the other one alone (`Lighter.book`,
   `Lighter.book_right`).
3. Under a saturating curve no metric of a lighter node is larger (`Lighter.metrics_le`).
-/

namespace NodeRanking

open Binary64

attribute [local irreducible] Binary64.one Binary64.limit

/-! ## Usage -/

section Usage

variable (requested allocatable : UInt64)

theorem usage_of_eq_zero (h : allocatable = 0) : usage requested allocatable = 0 := if_pos h

/-- The usage of what can be given is a rounded quotient. -/
theorem usage_eq_ofRatio (h : allocatable ≠ 0) : usage requested allocatable =
      ofRatio false ((Binary64.ofNat requested.toNat).height * one)
        (Binary64.ofNat allocatable.toNat).height ∧
    one ≤ (Binary64.ofNat allocatable.toNat).height := by
  have hpos : 0 < allocatable.toNat := by
    rw [Nat.pos_iff_ne_zero]
    exact fun h0 => h (UInt64.toNat_inj.1 h0)
  have hone := one_le_height_ofNat hpos
  have hu := unsigned_ofNat requested.toNat
  refine ⟨?_, hone⟩
  unfold usage
  rw [if_neg h, div_eq_ofRatio (isFinite_ofNat requested.toNat_lt_size.le)
    (isFinite_ofNat allocatable.toNat_lt_size.le) (unsigned_ofNat _)
    (Binary64.one_pos.trans_le hone), hu.2]

theorem unsigned_usage : (usage requested allocatable).Unsigned := by
  by_cases h : allocatable = 0
  · rw [usage_of_eq_zero requested allocatable h]
    exact unsigned_zero
  · obtain ⟨heq, hone⟩ := usage_eq_ofRatio requested allocatable h
    rw [heq]
    exact unsigned_ofRatio _ (Binary64.one_pos.trans_le hone)

/-- A number of the word over a number of at least one. -/
theorem height_usage_le : (usage requested allocatable).height ≤ UInt64.size * one := by
  by_cases h : allocatable = 0
  · rw [usage_of_eq_zero requested allocatable h, height_ofNat_zero]
    exact Nat.zero_le _
  obtain ⟨heq, hone⟩ := usage_eq_ofRatio requested allocatable h
  have hpos := Binary64.one_pos.trans_le hone
  rw [heq, height_ofRatio _ _ hpos]
  refine (min_le_left _ _).trans (nearest_le hpos onGrid_wordSize_mul_one ?_)
  exact Nat.mul_le_mul (height_ofNat_le requested.toNat_lt_size.le) hone

theorem isFinite_usage : (usage requested allocatable).isFinite = true :=
  (unsigned_usage _ _).isFinite_iff.2
    ((height_usage_le requested allocatable).trans_lt wordSize_mul_one_lt)

/-- The usage grows with what is requested. -/
theorem usage_mono {requested requested' : UInt64} (h : requested.toNat ≤ requested'.toNat) :
    usage requested allocatable ≤ usage requested' allocatable := by
  rw [(unsigned_usage _ _).le_iff (unsigned_usage _ _)]
  by_cases h0 : allocatable = 0
  · rw [usage_of_eq_zero _ _ h0, usage_of_eq_zero _ _ h0]
  obtain ⟨heq, hone⟩ := usage_eq_ofRatio requested allocatable h0
  obtain ⟨heq', -⟩ := usage_eq_ofRatio requested' allocatable h0
  have hpos := Binary64.one_pos.trans_le hone
  rw [heq, heq', height_ofRatio _ _ hpos, height_ofRatio _ _ hpos]
  apply min_le_min_right
  exact nearest_mono_left hpos (Nat.mul_le_mul_right one (height_ofNat_mono h))

end Usage

/-! ## Lighter nodes -/

theorem Metrics.get_le_get {v w : Metrics} (hpods : v.pods ≤ w.pods) (hcpu : v.cpu ≤ w.cpu)
    (hmemory : v.memory ≤ w.memory) (hpower : v.power ≤ w.power) (c : Criterion) :
    v.get c ≤ w.get c := by
  cases c with
  | pods => exact hpods
  | cpu => exact hcpu
  | memory => exact hmemory
  | power => exact hpower

namespace Node

/-- Of two nodes that can give the same, the first carries no more. -/
structure Lighter (a b : Node) : Prop where
  allocatable : a.allocatable = b.allocatable
  cpu : a.requested.cpu.toNat ≤ b.requested.cpu.toNat
  memory : a.requested.memory.toNat ≤ b.requested.memory.toNat
  pods : a.pods.toNat ≤ b.pods.toNat

variable (request : Resources) (a : Node)

theorem cpu_book : (a.book request).requested.cpu.toNat =
    min (a.requested.cpu.toNat + request.cpu.toNat) (UInt64.size - 1) := toNat_addCapped _ _

theorem memory_book : (a.book request).requested.memory.toNat =
    min (a.requested.memory.toNat + request.memory.toNat) (UInt64.size - 1) := toNat_addCapped _ _

theorem pods_book : (a.book request).pods.toNat = min (a.pods.toNat + 1) (UInt32.size - 1) :=
  toNat_succCapped _

namespace Lighter

variable {a b : Node} (h : a.Lighter b)

include h

theorem book : (a.book request).Lighter (b.book request) where
  allocatable := h.allocatable
  cpu := by
    have := h.cpu
    rw [cpu_book, cpu_book]
    omega
  memory := by
    have := h.memory
    rw [memory_book, memory_book]
    omega
  pods := by
    have := h.pods
    rw [pods_book, pods_book]
    omega

theorem book_right : a.Lighter (b.book request) where
  allocatable := h.allocatable
  cpu := by
    have := h.cpu
    have := b.requested.cpu.toNat_lt_size
    rw [cpu_book]
    omega
  memory := by
    have := h.memory
    have := b.requested.memory.toNat_lt_size
    rw [memory_book]
    omega
  pods := by
    have := h.pods
    have := b.pods.toNat_lt_size
    rw [pods_book]
    omega

/-- The node that was booked on no more often stays the lighter one. -/
theorem iterate_book {m n : ℕ} (hmn : m ≤ n) :
    ((Node.book request)^[m] a).Lighter ((Node.book request)^[n] b) := by
  induction hmn with
  | refl =>
    induction m with
    | zero => exact h
    | succ m ih =>
      rw [Function.iterate_succ_apply', Function.iterate_succ_apply']
      exact ih.book request
  | step _ ih =>
    rw [Function.iterate_succ_apply']
    exact ih.book_right request

theorem view (mode : Mode) : (mode.view request a).Lighter (mode.view request b) := by
  cases mode with
  | current => exact h
  | projected => exact h.book request

/-- No metric of a lighter node is larger. -/
theorem metrics_le {exp : Binary64 → Binary64} {curve : PowerCurve} (hcurve : curve.Usable)
    (hshape : curve.shape = .saturating) (hunit : UnitBelowZero exp) (hmono : MonoBelowZero exp)
    (c : Criterion) : (a.metrics exp curve).get c ≤ (b.metrics exp curve).get c := by
  have hcpu : usage a.requested.cpu a.allocatable.cpu ≤
      usage b.requested.cpu b.allocatable.cpu := by
    rw [h.allocatable]
    exact usage_mono _ h.cpu
  have hmemory : usage a.requested.memory a.allocatable.memory ≤
      usage b.requested.memory b.allocatable.memory := by
    rw [h.allocatable]
    exact usage_mono _ h.memory
  have hpods : Binary64.ofNat a.pods.toNat ≤ Binary64.ofNat b.pods.toNat := by
    rw [(unsigned_ofNat _).le_iff (unsigned_ofNat _)]
    exact height_ofNat_mono h.pods
  have hnonneg := (unsigned_usage a.requested.cpu a.allocatable.cpu).place_nonneg
  have hpower := hcurve.powerAt_mono hunit (isFinite_usage _ _) hnonneg hmono hshape
    (isFinite_usage b.requested.cpu b.allocatable.cpu) (le_iff.1 hcpu).2.2
  unfold Node.metrics
  exact Metrics.get_le_get hpods hcpu hmemory hpower c

end Lighter

end Node

end NodeRanking
