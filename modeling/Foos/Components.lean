import Foos.PathWalk

/-! The maximal runs of a string as a function of its characters. -/
namespace Foos.Libc
open CString MaximalRuns Fs

/-- The words between the characters of `d`, with `acc` read of the current one. -/
def wordsFrom (d acc : List UInt8) : List UInt8 → List (List UInt8)
  | [] => if acc = [] then [] else [acc]
  | c :: s =>
    if c ∈ d then if acc = [] then wordsFrom d [] s else acc :: wordsFrom d [] s
    else wordsFrom d (acc ++ [c]) s

def words (d s : List UInt8) : List (List UInt8) := wordsFrom d [] s

/-- The components of a path. -/
def components (s : List UInt8) : List (List UInt8) := words [47] s

section
variable {s d front acc rest : List UInt8} {n q r i j : Nat} {D : Nat → Prop}

/-- The runs from the beginning of one on are that one and those behind it. -/
theorem run_from_iff (h : MaximalRun D n q j) (hjr : j ≤ r) (hgap : ∀ u, j ≤ u → u < r → D u)
    {i' j' : Nat} (h' : MaximalRun D n i' j') : q ≤ i' ↔ (i', j') = (q, j) ∨ r ≤ i' := by
  have hqj := h.nonempty
  constructor
  · intro hle
    cases Nat.eq_or_lt_of_le hle with
    | inl heq =>
      subst heq
      exact Or.inl (by rw [h'.stop_unique h])
    | inr hlt => exact Or.inr (h.next hgap h' hlt)
  · intro hcase
    cases hcase with
    | inl heq => exact (Prod.mk.inj heq).1 ▸ Nat.le_refl q
    | inr hle => omega

/-- A word with delimiters or an end on both sides is a run. -/
theorem word_run (hacc : ∀ c ∈ acc, c ∉ d) (hne : acc ≠ [])
    (hfront : ∀ c, front.getLast? = some c → c ∈ d) (hrest : ∀ c, rest.head? = some c → c ∈ d) :
    MaximalRun (IsDelim (front ++ (acc ++ rest)) d) (front ++ (acc ++ rest)).length front.length
      (front.length + acc.length) := by
  have hpos : 0 < acc.length := List.length_pos_of_ne_nil hne
  refine ⟨by omega, by simp, fun u h1 h2 hdelim => ?_, fun u hu => ?_, fun hlt => ?_⟩
  · obtain ⟨c, hc, hmem⟩ := hdelim
    rw [List.getElem?_append_right h1, List.getElem?_append_left (by omega)] at hc
    exact hacc c (List.mem_of_getElem? hc) hmem
  · have hlast : front.getLast? = front[u]? := by
      rw [List.getLast?_eq_getElem?, ← hu, Nat.add_sub_cancel]
    have hget : front[u]? = some front[u] := List.getElem?_eq_getElem (by omega)
    refine ⟨front[u], ?_, hfront _ (hlast.trans hget)⟩
    rw [List.getElem?_append_left (by omega), hget]
  · have hlen : 0 < rest.length := by
      simp only [List.length_append] at hlt
      omega
    have hget : rest[0]? = some rest[0] := List.getElem?_eq_getElem hlen
    refine ⟨rest[0], ?_, hrest _ (List.head?_eq_getElem?.trans hget)⟩
    rw [List.getElem?_append_right (by omega), List.getElem?_append_right (by omega)]
    have hzero : front.length + acc.length - front.length - acc.length = 0 := by omega
    rw [hzero, hget]

theorem text_word : text (front ++ (acc ++ rest)) (front.length, front.length + acc.length) =
    acc := by
  simp [text, List.take_append]

/-- What is read of the string, a word and the rest: the runs from the word on are the words. -/
theorem wordsFrom_runs (hacc : ∀ c ∈ acc, c ∉ d)
    (hfront : ∀ c, front.getLast? = some c → c ∈ d) :
    ∃ l, RunsFrom (front ++ (acc ++ s)) d front.length l ∧
      l.map (text (front ++ (acc ++ s))) = wordsFrom d acc s := by
  induction s generalizing front acc with
  | nil =>
    have hnone : RunsFrom (front ++ (acc ++ [])) d (front.length + acc.length) [] := by
      refine .nil fun i j hrun hi => ?_
      have hlt := hrun.nonempty
      have hle := hrun.within
      simp only [List.append_nil, List.length_append] at hle
      omega
    by_cases hne : acc = []
    · subst hne
      exact ⟨[], hnone, (if_pos rfl).symm⟩
    · have hrest : ∀ c, ([] : List UInt8).head? = some c → c ∈ d := nofun
      have hrun := word_run hacc hne hfront hrest
      have hlt := hrun.nonempty
      refine ⟨[_], hnone.cons hrun hlt fun i' j' h' => run_from_iff hrun (Nat.le_refl _)
        (fun u h1 h2 => absurd h2 (Nat.not_lt.mpr h1)) h', ?_⟩
      rw [List.map_singleton, text_word, wordsFrom, if_neg hne]
  | cons c s ih =>
    by_cases hc : c ∈ d
    · have hlast : ∀ x, (front ++ acc ++ [c]).getLast? = some x → x ∈ d := by
        intro x hx
        rw [List.getLast?_concat] at hx
        exact Option.some.inj hx ▸ hc
      have hnew : ∀ x ∈ ([] : List UInt8), x ∉ d := nofun
      obtain ⟨l, hl, hmap⟩ := ih hnew hlast
      have hs : front ++ acc ++ [c] ++ ([] ++ s) = front ++ (acc ++ c :: s) := by simp
      have hlen : (front ++ acc ++ [c]).length = front.length + acc.length + 1 := by
        simp [Nat.add_assoc]
      rw [hs, hlen] at hl
      rw [hs] at hmap
      have hdelim : IsDelim (front ++ (acc ++ c :: s)) d (front.length + acc.length) := by
        refine ⟨c, ?_, hc⟩
        rw [List.getElem?_append_right (by omega), List.getElem?_append_right (by omega)]
        have hzero : front.length + acc.length - front.length - acc.length = 0 := by omega
        rw [hzero]
        rfl
      by_cases hne : acc = []
      · subst hne
        refine ⟨l, ⟨hl.sorted, fun i j => (hl.mem i j).trans ?_⟩, ?_⟩
        · refine and_congr_right fun hrun => ⟨fun h => by simp only [List.length_nil] at h; omega,
            fun h => ?_⟩
          have hi : i ≠ front.length := fun heq =>
            hrun.free i (Nat.le_refl _) hrun.nonempty (heq ▸ hdelim)
          simp only [List.length_nil]
          omega
        · rw [hmap, wordsFrom, if_pos hc, if_pos rfl]
      · have hrest : ∀ x, (c :: s).head? = some x → x ∈ d := fun x hx => Option.some.inj hx ▸ hc
        have hrun := word_run hacc hne hfront hrest
        have hlt := hrun.nonempty
        refine ⟨_ :: l, hl.cons hrun (by omega) fun i' j' h' => run_from_iff hrun (by omega)
          (fun u h1 h2 => ?_) h', ?_⟩
        · obtain rfl : u = front.length + acc.length := by omega
          exact hdelim
        · rw [List.map_cons, text_word, hmap, wordsFrom, if_pos hc, if_neg hne]
    · have hacc' : ∀ x ∈ acc ++ [c], x ∉ d := by
        intro x hx
        cases List.mem_append.mp hx with
        | inl hx => exact hacc x hx
        | inr hx => exact List.mem_singleton.mp hx ▸ hc
      have hs : front ++ (acc ++ [c] ++ s) = front ++ (acc ++ c :: s) := by simp
      obtain ⟨l, hl, hmap⟩ := ih hacc' hfront
      rw [hs] at hl hmap
      exact ⟨l, hl, by rw [hmap, wordsFrom, if_neg hc]⟩

/-- The texts of the runs are the words. -/
theorem runs_words {l : List (Nat × Nat)} (h : RunsFrom s d 0 l) : l.map (text s) = words d s := by
  have hnew : ∀ x ∈ ([] : List UInt8), x ∉ d := nofun
  have hfront : ∀ x, ([] : List UInt8).getLast? = some x → x ∈ d := nofun
  obtain ⟨l', hl, hmap⟩ : ∃ l', RunsFrom s d 0 l' ∧ l'.map (text s) = words d s :=
    wordsFrom_runs hnew hfront
  rw [h.unique hl]
  exact hmap

end

end Foos.Libc
