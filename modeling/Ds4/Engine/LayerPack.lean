import Mathlib.Algebra.Order.Sub.Unbundled.Basic
import Mathlib.Algebra.Order.Ring.Nat
import Ds4.Lib.Packing

/-!
# The placement of layers on devices

`ds4_compute_layer_placement` goes once over the entries of a model, in the order in which they are
evaluated, and never goes back to a device. What it places on the devices is the packing `nextFit`
of the sizes into the budgets; everything behind stays on the CPU.
-/

namespace Ds4.LayerPack
open Packing

def layerPackMaxGpus : Nat := 16

inductive Device
  | gpu (d : Nat)
  | cpu
  deriving DecidableEq, Repr

structure LayerPackConfig where
  gpuBudgetBytes : Vector UInt64 layerPackMaxGpus
  nGpus : Int

/-- What is used of the local copy of the budgets. -/
def LayerPackConfig.budgets (cfg : LayerPackConfig) : List UInt64 :=
  cfg.gpuBudgetBytes.toList.take cfg.nGpus.toNat

/-- The loop over the entries; the budgets are those of the devices from `d` on, and a turn either
advances the device or places an entry. -/
def placeLoop : Nat → List UInt64 → List UInt64 → List Device
  | _, _, [] => []
  | d, [], _ :: entries => .cpu :: placeLoop d [] entries
  | d, budget :: budgets, bytes :: entries =>
    if budget < bytes then placeLoop (d + 1) budgets (bytes :: entries)
    else .gpu d :: placeLoop d ((budget - bytes) :: budgets) entries
termination_by _ budgets entries => budgets.length + entries.length

/-- The error codes are those of the source. -/
def ds4ComputeLayerPlacement (entryBytes : List UInt64) (cfg : LayerPackConfig) :
    Except Nat (List Device) :=
  if cfg.nGpus < 0 ∨ cfg.nGpus > layerPackMaxGpus then .error 3
  else .ok (placeLoop 0 cfg.budgets entryBytes)

def sizes (bytes : List UInt64) : List Nat := bytes.map (·.toNat)

theorem sizes_cons (e : UInt64) (bytes : List UInt64) : sizes (e :: bytes) = e.toNat :: sizes bytes := rfl

theorem placeLoop_nil (d : Nat) (entries : List UInt64) :
    placeLoop d [] entries = List.replicate entries.length .cpu := by
  induction entries with
  | nil => rw [placeLoop, List.length_nil, List.replicate_zero]
  | cons e entries ih => rw [placeLoop, ih, List.length_cons, List.replicate_succ]

theorem placeLoop_eq (d : Nat) (budgets entries : List UInt64) :
    placeLoop d budgets entries =
      (nextFit d (sizes budgets) (sizes entries)).map .gpu ++
        List.replicate (entries.length - (nextFit d (sizes budgets) (sizes entries)).length) .cpu := by
  induction d, budgets, entries using placeLoop.induct with
  | case1 d budgets =>
    rw [placeLoop, show sizes [] = [] from rfl, nextFit]
    rfl
  | case2 d e entries _ =>
    rw [placeLoop_nil, show sizes [] = [] from rfl, sizes_cons, nextFit]
    rfl
  | case3 d b budgets e entries hlt ih =>
    have hlt' : b.toNat < e.toNat := UInt64.lt_iff_toNat_lt.mp hlt
    rw [placeLoop, if_pos hlt, ih, sizes_cons b, sizes_cons e, nextFit, if_pos hlt']
  | case4 d b budgets e entries hge ih =>
    have hle : e ≤ b := UInt64.not_lt.mp hge
    have hge' : ¬b.toNat < e.toNat := fun h => hge (UInt64.lt_iff_toNat_lt.mpr h)
    -- the budget does not underflow
    have hsub : (b - e).toNat = b.toNat - e.toNat := UInt64.toNat_sub_of_le b e hle
    have hsizes : sizes ((b - e) :: budgets) = (b.toNat - e.toNat) :: sizes budgets := by
      rw [sizes_cons, hsub]
    rw [placeLoop, if_neg hge, ih, hsizes, sizes_cons b, sizes_cons e, nextFit, if_neg hge',
      List.map_cons, List.cons_append, List.length_cons, List.length_cons, Nat.add_sub_add_right]

/-- What is placed on the devices is a packing into their budgets, everything else is on the CPU behind
it, and no packing holds more entries. -/
theorem ds4ComputeLayerPlacement_optimal (entryBytes : List UInt64) (cfg : LayerPackConfig)
    (h0 : 0 ≤ cfg.nGpus) (hmax : cfg.nGpus ≤ layerPackMaxGpus) :
    ∃ gpus : List Nat,
      ds4ComputeLayerPlacement entryBytes cfg =
        .ok (gpus.map .gpu ++ List.replicate (entryBytes.length - gpus.length) .cpu) ∧
      Packs 0 (sizes cfg.budgets) (sizes entryBytes) gpus ∧
      ∀ other, Packs 0 (sizes cfg.budgets) (sizes entryBytes) other → other.length ≤ gpus.length := by
  refine ⟨nextFit 0 (sizes cfg.budgets) (sizes entryBytes), ?_, nextFit_packs .., fun _ h =>
    h.length_le_nextFit⟩
  rw [ds4ComputeLayerPlacement, if_neg (by omega), placeLoop_eq]

/-- Two devices of ten bytes: the large entry leaves the first one for good. -/
def twoDevices : LayerPackConfig where
  gpuBudgetBytes := .ofFn fun i => if i.val < 2 then 10 else 0
  nGpus := 2

theorem ds4ComputeLayerPlacement_optimal_two :
    ∃ gpus : List Nat,
      ds4ComputeLayerPlacement [4, 9, 3] twoDevices =
        .ok (gpus.map .gpu ++ List.replicate (3 - gpus.length) .cpu) ∧
      Packs 0 (sizes twoDevices.budgets) (sizes [4, 9, 3]) gpus ∧
      ∀ other, Packs 0 (sizes twoDevices.budgets) (sizes [4, 9, 3]) other →
        other.length ≤ gpus.length :=
  ds4ComputeLayerPlacement_optimal [4, 9, 3] twoDevices (by decide) (by decide)

end Ds4.LayerPack
