import LoopSched.Format.Access
import LoopSched.Proofs.Json.Decode
import LoopSched.Proofs.Shifting

/-!
# Chains are read back

What is written for a chain is read as the same chain.  Its sets are kept in order, so writing their
members one by one and building the sets again changes nothing.
-/

namespace LoopSched

open Json Json.Decode

namespace Tuple

theorem written {t : Tuple} (h : t.Fits) : Written decoder t.toJson t := by
  have hvalues := Written.list fun x hx => Written.word (h x hx)
  refine Written.record rfl (by decide) ?_ ?_
  · simp only [List.forall_mem_cons]
    exact ⟨hvalues.plain, List.forall_mem_nil _⟩
  · rintro room ks (_ | ⟨hv, ⟨⟩⟩)
    simp [required, hv hvalues]

theorem depth_toJson (t : Tuple) : t.toJson.depth ≤ 2 := by
  refine depth_ofMembers (List.forall_mem_singleton.mpr (depth_ofList fun x _ => ?_))
  exact Nat.le_refl 0

end Tuple

namespace Collection

/-- The set is in order, and all numbers are words. -/
structure Fits (c : Collection) : Prop where
  increasing : SortedList.Increasing Tuple.cmp c.tuples
  tuples : ∀ t ∈ c.tuples, t.Fits
  width : c.width < Word.count

theorem written {c : Collection} (h : c.Fits) : Written decoder c.toJson c := by
  have htuples := Written.list fun t ht => Tuple.written (h.tuples t ht)
  have hwidth := Written.nat h.width
  refine Written.record rfl (by decide) ?_ ?_
  · simp only [List.forall_mem_cons]
    exact ⟨htuples.plain, hwidth.plain, List.forall_mem_nil _⟩
  · rintro room ks (_ | ⟨ht, _ | ⟨hw, ⟨⟩⟩⟩)
    simp [required, ht htuples, hw hwidth, h.increasing.ofList_eq]

theorem depth_toJson (c : Collection) : c.toJson.depth ≤ 4 := by
  refine depth_ofMembers ?_
  simp only [List.forall_mem_cons]
  exact ⟨depth_ofList fun t _ => t.depth_toJson, Nat.zero_le _, List.forall_mem_nil _⟩

end Collection

namespace Dataspace

structure Fits (d : Dataspace) : Prop where
  reads : d.reads.Fits
  writes : d.writes.Fits

theorem written {d : Dataspace} (h : d.Fits) : Written decoder d.toJson d := by
  have hname := Written.string d.name
  have hreads := Collection.written h.reads
  have hwrites := Collection.written h.writes
  refine Written.record rfl (by decide) ?_ ?_
  · simp only [List.forall_mem_cons]
    exact ⟨hname.plain, hreads.plain, hwrites.plain, List.forall_mem_nil _⟩
  · rintro room ks (_ | ⟨hn, _ | ⟨hr, _ | ⟨hw, ⟨⟩⟩⟩⟩)
    simp [required, hn hname, hr hreads, hw hwrites]

theorem depth_toJson (d : Dataspace) : d.toJson.depth ≤ 5 := by
  refine depth_ofMembers ?_
  simp only [List.forall_mem_cons]
  exact ⟨Nat.zero_le _, d.reads.depth_toJson, d.writes.depth_toJson, List.forall_mem_nil _⟩

end Dataspace

namespace Domain

theorem written {d : Domain} (h : SortedList.Increasing compare d.symbols) :
    Written decoder d.toJson d := by
  have hbounds : Written (list (pair string string))
      (.ofList (fun b => .array [.ofString b.1, .ofString b.2]) d.bounds) d.bounds :=
    Written.list fun b _ => (Written.string b.1).pair (Written.string b.2)
  have hsymbols := Written.list fun s (_ : s ∈ d.symbols) => Written.string s
  refine Written.record rfl (by decide) ?_ ?_
  · simp only [List.forall_mem_cons]
    exact ⟨hbounds.plain, hsymbols.plain, List.forall_mem_nil _⟩
  · rintro room ks (_ | ⟨hb, _ | ⟨hs, ⟨⟩⟩⟩)
    simp [required, hb hbounds, hs hsymbols, SortedList.ofStrings, h.ofList_eq]

theorem depth_toJson (d : Domain) : d.toJson.depth ≤ 3 := by
  refine depth_ofMembers ?_
  simp only [List.forall_mem_cons]
  refine ⟨depth_ofList fun b _ => depth_array_le.mpr ⟨0, rfl, ?_⟩,
    Nat.le_trans (depth_ofList fun s _ => Nat.le_refl 0) (by decide), List.forall_mem_nil _⟩
  simp only [List.forall_mem_cons]
  exact ⟨Nat.le_refl 0, Nat.le_refl 0, List.forall_mem_nil _⟩

end Domain

namespace Nest

/-- The sets are in order, and all numbers are words. -/
structure Fits (n : Nest) : Prop where
  symbols : SortedList.Increasing compare n.domain.symbols
  dataspaces : ∀ d ∈ n.dataspaces, d.Fits

theorem written {n : Nest} (h : n.Fits) : Written decoder n.toJson n := by
  have hdomain := Domain.written h.symbols
  have hdataspaces := Written.list fun d hd => Dataspace.written (h.dataspaces d hd)
  refine Written.record rfl (by decide) ?_ ?_
  · simp only [List.forall_mem_cons]
    exact ⟨hdomain.plain, hdataspaces.plain, List.forall_mem_nil _⟩
  · rintro room ks (_ | ⟨hd, _ | ⟨hds, ⟨⟩⟩⟩)
    simp [required, hd hdomain, hds hdataspaces]

theorem depth_toJson (n : Nest) : n.toJson.depth ≤ 7 := by
  refine depth_ofMembers ?_
  simp only [List.forall_mem_cons]
  exact ⟨Nat.le_trans n.domain.depth_toJson (by decide),
    depth_ofList fun d _ => d.depth_toJson, List.forall_mem_nil _⟩

end Nest

namespace Chain

def Fits (c : Chain) : Prop := ∀ n ∈ c.nests, n.Fits

theorem written {c : Chain} (h : c.Fits) : Written decoder c.toJson c := by
  have hnests := Written.list fun n hn => Nest.written (h n hn)
  refine Written.record rfl (by decide) ?_ ?_
  · simp only [List.forall_mem_cons]
    exact ⟨hnests.plain, List.forall_mem_nil _⟩
  · rintro room ks (_ | ⟨hn, ⟨⟩⟩)
    simp [required, hn hnests]

/-- A chain is never nested too deep to be read. -/
theorem depth_toJson (c : Chain) : c.toJson.depth ≤ nestingLimit := by
  have hdepth : c.toJson.depth ≤ 9 := by
    refine depth_ofMembers ?_
    simp only [List.forall_mem_cons]
    exact ⟨depth_ofList fun n _ => n.depth_toJson, List.forall_mem_nil _⟩
  exact Nat.le_trans hdepth (by decide)

end Chain

end LoopSched
