import MessageQueue.Base.Wire

/-! Encodings that are cut short and filled up with zero bytes: the reader takes the fields that
are there in full, at most one more that reaches into the zeros, and stops. -/
namespace MessageQueue.Base.Wire

variable {bs rest : Bytes} {n : ℕ} {fld : Field}

/-- A number is read from its own bytes, whatever follows them. -/
theorem readVarint_used (h : readVarint bs = some (n,rest)) :
    ∃ used, bs = used ++ rest ∧ ∀ r, readVarint (used ++ r) = some (n,r) := by
  induction bs generalizing n with
  | nil => simp [readVarint] at h
  | cons b bs ih =>
    rw [readVarint] at h
    split_ifs at h with hb
    · cases h
      exact ⟨[b],rfl,fun r => by simp [readVarint,hb]⟩
    · obtain ⟨⟨k,rest'⟩,hk,e⟩ := Option.map_eq_some_iff.mp h
      cases e
      obtain ⟨used,rfl,hr⟩ := ih hk
      exact ⟨b::used,rfl,fun r => by simp [readVarint,hb,hr]⟩

/-- A value is read from its own bytes, and those of a length-delimited one are the last of them. -/
theorem readValue_used {k : ℕ} {v : Value} (h : readValue k bs = some (v,rest)) :
    ∃ used, bs = used ++ rest ∧ (∀ r, readValue k (used ++ r) = some (v,r)) ∧
      ∀ c, v = .bytes c → ∃ front, used = front ++ c := by
  have hfixed : ∀ w, w ≤ bs.length → (bs.take w).length = w := fun w hw => by
    rw [List.length_take,min_eq_left hw]
  unfold readValue at h
  split at h
  · obtain ⟨⟨n,bs₁⟩,hn,heq⟩ := Option.map_eq_some_iff.mp h
    cases heq
    obtain ⟨used,rfl,hu⟩ := readVarint_used hn
    exact ⟨used,rfl,fun r => by simp only [readValue,hu,Option.map_some],by simp⟩
  · split_ifs at h with hlen
    cases h
    refine ⟨bs.take 8,by simp,fun r => ?_,by simp⟩
    have hw := hfixed 8 hlen
    simp only [readValue]
    rw [if_pos (by simp [hw]),List.take_left' hw,List.drop_left' hw]
  · obtain ⟨⟨n,bs₁⟩,hn,hsome⟩ := Option.bind_eq_some_iff.mp h
    obtain ⟨used,rfl,hu⟩ := readVarint_used hn
    simp only at hsome
    split_ifs at hsome with hlen
    cases hsome
    have hw : (bs₁.take n).length = n := by rw [List.length_take,min_eq_left hlen]
    refine ⟨used ++ bs₁.take n,by simp,fun r => ?_,fun c hc => ?_⟩
    · simp only [readValue,List.append_assoc,hu,Option.bind_some]
      rw [if_pos (by simp [hw]),List.take_left' hw,List.drop_left' hw]
    · cases hc
      exact ⟨used,rfl⟩
  · split_ifs at h with hlen
    cases h
    refine ⟨bs.take 4,by simp,fun r => ?_,by simp⟩
    have hw := hfixed 4 hlen
    simp only [readValue]
    rw [if_pos (by simp [hw]),List.take_left' hw,List.drop_left' hw]
  · cases h

/-- A field is read from its own bytes, and the bytes of its value are the last of them. -/
theorem readField_used (h : readField bs = some (fld,rest)) :
    ∃ used, bs = used ++ rest ∧ (∀ r, readField (used ++ r) = some (fld,r)) ∧
      ∀ c, fld.value = .bytes c → ∃ front, used = front ++ c := by
  obtain ⟨⟨tag,bs₁⟩,htag,hsome⟩ := Option.bind_eq_some_iff.mp h
  obtain ⟨u₁,rfl,hu₁⟩ := readVarint_used htag
  simp only at hsome
  split_ifs at hsome with hnum
  obtain ⟨⟨v,bs₂⟩,hv,heq⟩ := Option.map_eq_some_iff.mp hsome
  cases heq
  obtain ⟨u₂,rfl,hu₂,hlast⟩ := readValue_used hv
  refine ⟨u₁ ++ u₂,by simp,fun r => ?_,fun c hc => ?_⟩
  · rw [readField,List.append_assoc,hu₁,Option.bind_some,if_pos hnum,hu₂,Option.map_some]
  · obtain ⟨front,rfl⟩ := hlast c hc
    exact ⟨u₁ ++ front,by simp⟩

/-- Zero bytes are no field. -/
theorem readField_zeros (k : ℕ) : readField (List.replicate k 0) = none := by
  cases k with
  | zero => rfl
  | succ k => simp [List.replicate_succ,readField,readVarint]

/-- A field whose encoding is cut short is not read back, but another one may be, that is empty or
ends with a zero byte. -/
theorem readField_cut {f : Field} (hf : f.Valid) {j k : ℕ} (hj : j < f.encode.length)
    (h : readField (f.encode.take j ++ List.replicate k 0) = some (fld,rest)) :
    (∃ i, rest = List.replicate i 0) ∧
      ∀ c, fld.value = .bytes c → c = [] ∨ c.getLast? = some 0 := by
  obtain ⟨used,e,hr,hv⟩ := readField_used h
  have hlong : j < used.length := by
    by_contra hle
    have hpre : used = f.encode.take used.length := by
      have ht := congrArg (List.take used.length) e
      rw [List.take_left,List.take_append_of_le_length (by simp; omega),List.take_take,
        min_eq_left (by omega)] at ht
      exact ht.symm
    have hself : readField (f.encode ++ []) = some (fld,f.encode.drop used.length) := by
      rw [List.append_nil]
      conv_lhs => rw [← List.take_append_drop used.length f.encode,← hpre]
      exact hr _
    rw [readField_encode f [] hf] at hself
    have hdrop := congrArg List.length (Prod.ext_iff.mp (Option.some.inj hself)).2
    simp at hdrop
    omega
  have hlen : (f.encode.take j).length = j := by simp; omega
  obtain ⟨z,hz,hrest⟩ : ∃ z, used = f.encode.take j ++ z ∧ List.replicate k 0 = z ++ rest := by
    obtain ⟨z,hz⟩ := (List.prefix_of_prefix_length_le (List.prefix_append (f.encode.take j)
      (List.replicate k 0)) (e ▸ List.prefix_append used rest) (by omega))
    refine ⟨z,hz.symm,?_⟩
    rw [← hz,List.append_assoc] at e
    exact List.append_cancel_left e
  have hzero : ∀ b ∈ z ++ rest, b = 0 := by
    intro b hb
    rw [← hrest] at hb
    exact List.eq_of_mem_replicate hb
  refine ⟨⟨rest.length,List.eq_replicate_iff.mpr ⟨rfl,fun b hb => hzero b (by simp [hb])⟩⟩,?_⟩
  intro c hc
  obtain ⟨front,hfront⟩ := hv c hc
  by_cases hnil : c = []
  · exact .inl hnil
  · right
    have hz' : z ≠ [] := by
      intro hz'
      rw [hz',List.append_nil] at hz
      rw [hz] at hlong
      omega
    have hlast : c.getLast? = z.getLast? := by
      have h₁ : used.getLast? = c.getLast? := by
        rw [hfront,List.getLast?_append_of_ne_nil _ hnil]
      have h₂ : used.getLast? = z.getLast? := by
        rw [hz,List.getLast?_append_of_ne_nil _ hz']
      exact h₁.symm.trans h₂
    rw [hlast,List.getLast?_eq_getLast_of_ne_nil hz']
    exact congrArg some (hzero _ (List.mem_append_left _ (List.getLast_mem hz')))

section Reader
variable {α : Type*} {f : α → Field → α × Bool} {g : α → Field → α}

/-- Zero bytes change nothing. -/
theorem readFields_zeros (fuel k : ℕ) (a : α) :
    (readFields f fuel a (List.replicate k 0)).1 = a := by
  have hz := readField_zeros k
  cases fuel with
  | zero => rfl
  | succ fuel =>
    cases k with
    | zero => rfl
    | succ k =>
      rw [List.replicate_succ] at hz ⊢
      simp only [readFields,hz]

/-- What is read from an encoding that is cut short within the field after `front`. -/
theorem readFields_cut {fs : List Field} (hf : ∀ a, ∀ fld ∈ fs, f a fld = (g a fld,true))
    (hn : ∀ fld ∈ fs, fld.Valid) {j k fuel : ℕ} {a : α} (hj : j < (encodeFields fs).length)
    (hfuel : j+k ≤ fuel) :
    ∃ front x back, fs = front ++ x::back ∧
      ((readFields f fuel a ((encodeFields fs).take j ++ List.replicate k 0)).1 = front.foldl g a ∨
      ∃ y : Field, (∀ c, y.value = .bytes c → c = [] ∨ c.getLast? = some 0) ∧
        (readFields f fuel a ((encodeFields fs).take j ++ List.replicate k 0)).1 =
          (f (front.foldl g a) y).1) := by
  induction fs generalizing j fuel a with
  | nil => simp [encodeFields] at hj
  | cons x fs ih =>
    have he : encodeFields (x::fs) = x.encode ++ encodeFields fs := rfl
    rw [he,List.length_append] at hj
    rw [he]
    by_cases hx : j < x.encode.length
    · -- the cut is within this field
      refine ⟨[],x,fs,rfl,?_⟩
      rw [List.take_append_of_le_length hx.le,List.foldl_nil]
      cases hb : x.encode.take j ++ List.replicate k 0 with
      | nil => exact .inl (by cases fuel <;> rfl)
      | cons b bs =>
        have hlen := congrArg List.length hb
        simp only [List.length_append,List.length_take,List.length_replicate,
          List.length_cons] at hlen
        obtain ⟨fuel,rfl⟩ : ∃ n, fuel = n+1 := ⟨fuel-1,by omega⟩
        cases hr : readField (b::bs) with
        | none => exact .inl (by simp only [readFields,hr])
        | some r =>
          obtain ⟨y,rest⟩ := r
          rw [← hb] at hr
          obtain ⟨⟨i,rfl⟩,hy⟩ := readField_cut (hn x (by simp)) hx hr
          refine .inr ⟨y,hy,?_⟩
          rw [hb] at hr
          simp only [readFields,hr]
          cases hfy : f a y with
          | mk a' ok =>
            cases ok with
            | false => rfl
            | true => exact readFields_zeros fuel i a'
    · -- this field is there in full
      have hpos : 0 < x.encode.length := List.length_pos_iff.mpr x.encode_ne_nil
      obtain ⟨fuel,rfl⟩ : ∃ n, fuel = n+1 := ⟨fuel-1,by omega⟩
      rw [List.take_append,List.take_of_length_le (by omega),List.append_assoc]
      have hr := readField_encode x ((encodeFields fs).take (j-x.encode.length) ++
        List.replicate k 0) (hn x (by simp))
      obtain ⟨b,bs,hb⟩ := List.exists_cons_of_ne_nil x.encode_ne_nil
      have hrest : j-x.encode.length+k ≤ fuel := by omega
      obtain ⟨front,z,back,rfl,hread⟩ := ih (a := g a x) (fun a y hy => hf a y (by simp [hy]))
        (fun y hy => hn y (by simp [hy])) (by omega) hrest
      refine ⟨x::front,z,back,rfl,?_⟩
      rw [hb] at hread
      rw [hb,List.cons_append] at hr ⊢
      simp only [readFields,hr,hf a x (by simp),List.foldl_cons]
      exact hread

end Reader
end MessageQueue.Base.Wire
