import RssRing.Library.Fields
import RssRing.Library.Loops
set_option autoImplicit false

namespace RssRing
open Fields

/-- The lines that `getline` finds when it has read `line` so far. A last line need not end. -/
def getlinesFrom (line : List Char) : List Char → List (List Char)
  | [] => if line = [] then [] else [line]
  | c :: cs => if c = '\n' then line :: getlinesFrom [] cs else getlinesFrom (line ++ [c]) cs

def getlines (file : List Char) : List (List Char) := getlinesFrom [] file

/-- `num.append(line,last,k)` for an empty `num`: from `last` on, of length `k`. -/
def substr (line : List Char) (last k : Nat) : List Char := (line.drop last).take k

/-- What the inner loop keeps; `passed` has the strings that go to `atof`, each with its `j`. -/
structure Scan where
  last : Nat
  j : Nat
  passed : List (Nat × List Char)

def scanStep (line : List Char) (st : Scan) (k : Nat) : Scan :=
  if (line)[k]? = some ',' ∨ k = line.length - 1 then
    ⟨if k = line.length - 1 then st.last else k + 1,st.j + 1,
      st.passed ++ [(st.j,substr line st.last k)]⟩
  else st

def scanLine (line : List Char) : Scan :=
  (List.range line.length).foldl (scanStep line) ⟨0,0,[]⟩

def passed (file : List Char) : List ((Nat × Nat) × List Char) :=
  (getlines file).zipIdx.flatMap fun e => (scanLine e.1).passed.map fun w => ((e.2,w.1),w.2)

/-- The common text of the readers. A file that cannot be opened leaves `output` as it is. -/
def readWith (convert : List Char → Int) (output : Nat → Int) (cols : Nat)
    (file : Option (List Char)) : Nat → Int :=
  match file with
  | none => output
  | some file => (passed file).foldl
      (fun output w => Function.update output (w.1.1*cols + w.1.2) (convert w.2)) output

/-- The floating-point numbers that a reader makes of its strings. -/
structure Doubles (F : Type) where
  atof : List Char → F
  ofLint : Nat → F
  times : F → F → F
  pow : F → Nat → F
  roundf : F → Int

namespace Doubles
variable {F : Type} (D : Doubles F)

def readFile (output : Nat → Int) (cols fractional : Nat) (file : Option (List Char)) : Nat → Int :=
  readWith (fun s => D.roundf (D.times (D.atof s) (D.ofLint fractional))) output cols file

def readX (output : Nat → Int) (cols : Nat) (file : Option (List Char)) : Nat → Int :=
  readWith (fun s => D.roundf (D.atof s)) output cols file

def readB (output : Nat → Int) (cols fractional : Nat) (file : Option (List Char)) (n : Nat) :
    Nat → Int :=
  readWith (fun s => D.roundf (D.times (D.atof s) (D.pow (D.ofLint fractional) n))) output cols file

def ReadsNumerals (P : List Char → Prop) (value : List Char → F) : Prop :=
  ∀ s f, Longest P s f → D.atof s = value f

end Doubles

section Line
variable {line : List Char} (j : Nat) (acc : List (Nat × List Char))

theorem scan_inside (st : Scan) : ∀ (m k : Nat),
    (∀ i, k ≤ i → i < k + m → (line)[i]? ≠ some ',' ∧ i ≠ line.length - 1) →
    (List.range' k m).foldl (scanStep line) st = st
  | 0,_,_ => rfl
  | m+1,k,h => by
    obtain ⟨hchar,hlast⟩ := h k (by omega) (by omega)
    have hturn : scanStep line st k = st := by
      rw [scanStep,if_neg]
      simp [hchar,hlast]
    rw [List.range'_succ,List.foldl_cons,hturn]
    exact scan_inside st m (k+1) fun i hi hm => h i (by omega) (by omega)

theorem getElem_field {pre f rest : List Char} (hf : ',' ∉ f) {i : Nat} (hlo : pre.length ≤ i)
    (hhi : i < pre.length + f.length) : (pre ++ (f ++ rest))[i]? ≠ some ',' := by
  rw [List.getElem?_append_right hlo,List.getElem?_append_left (by omega)]
  intro h
  exact hf (List.mem_of_getElem? h)

theorem scan_field {pre f rest : List Char} (hline : line = pre ++ (f ++ ',' :: rest))
    (hf : ',' ∉ f) (hrest : rest ≠ []) :
    (List.range' pre.length (f.length + 1)).foldl (scanStep line) ⟨pre.length,j,acc⟩ =
      ⟨pre.length + f.length + 1,j + 1,
        acc ++ [(j,substr line pre.length (pre.length + f.length))]⟩ := by
  have hlength : pre.length + f.length + 1 < line.length := by
    have hpos := List.length_pos_iff.mpr hrest
    rw [hline]
    simp only [List.length_append,List.length_cons]
    omega
  have hcomma : (line)[pre.length + f.length]? = some ',' := by
    rw [hline,List.getElem?_append_right (by omega),List.getElem?_append_right (by omega)]
    simp
  rw [List.range'_concat,List.foldl_append,scan_inside _ _ _ fun i hlo hhi => ?_]
  · rw [List.foldl_cons,List.foldl_nil,Nat.one_mul,scanStep,if_pos (Or.inl hcomma),
      if_neg (by omega)]
  · exact ⟨hline ▸ getElem_field hf hlo hhi,by omega⟩

theorem scan_last {pre f : List Char} (hline : line = pre ++ f) (hf : ',' ∉ f) (hne : f ≠ []) :
    (List.range' pre.length f.length).foldl (scanStep line) ⟨pre.length,j,acc⟩ =
      ⟨pre.length,j + 1,acc ++ [(j,substr line pre.length (line.length - 1))]⟩ := by
  obtain ⟨m,hm⟩ : ∃ m, f.length = m + 1 := ⟨f.length - 1,by
    have hpos := List.length_pos_iff.mpr hne
    omega⟩
  have hlength : line.length = pre.length + m + 1 := by
    rw [hline,List.length_append,hm,Nat.add_assoc]
  have hchar : ∀ i, pre.length ≤ i → i < pre.length + f.length → (line)[i]? ≠ some ',' := by
    intro i hlo hhi
    have h : (pre ++ (f ++ []))[i]? ≠ some ',' := getElem_field hf hlo hhi
    rwa [List.append_nil,← hline] at h
  rw [hm,List.range'_concat,List.foldl_append,scan_inside _ _ _ fun i hlo hhi => ?_]
  · have hend : pre.length + 1*m = line.length - 1 := by omega
    rw [List.foldl_cons,List.foldl_nil,hend,scanStep,if_pos (Or.inr rfl),if_pos rfl]
  · exact ⟨hchar i hlo (by omega),by omega⟩

structure Row (fs : List (List Char)) : Prop where
  ne_nil : fs ≠ []
  field : ∀ f ∈ fs, f ≠ [] ∧ ',' ∉ f

/-- A string that is cut at `last` and as long as what stands before its end is too long by
`last`, and takes in the separator. Only the string of a field that is the whole line, which
is cut by its last character, is too short. -/
theorem scan_fields : ∀ {fs : List (List Char)} {pre : List Char} (j : Nat)
    (acc : List (Nat × List Char)), line = pre ++ join ',' fs → Row fs → 2 ≤ fs.length ∨ pre ≠ [] →
    ∃ strings, ((List.range' pre.length (line.length - pre.length)).foldl (scanStep line)
        ⟨pre.length,j,acc⟩).passed = acc ++ (List.range' j fs.length).zip strings ∧
      List.Forall₂ (Begins ',') fs strings
  | [],_,_,_,_,hrow,_ => absurd rfl hrow.ne_nil
  | [f],pre,j,acc,hline,hrow,hlong => by
    obtain ⟨hne,hf⟩ := hrow.field f List.mem_cons_self
    rw [join] at hline
    have hpre : pre ≠ [] := hlong.resolve_left (by simp)
    have hpos := List.length_pos_iff.mpr hpre
    have hlength : line.length = pre.length + f.length := by rw [hline,List.length_append]
    refine ⟨[f],?_,List.Forall₂.cons (begins_self f) List.Forall₂.nil⟩
    have hstring : substr line pre.length (line.length - 1) = f := by
      rw [substr,hline,List.drop_left,List.take_of_length_le (by rw [List.length_append]; omega)]
    rw [hlength,Nat.add_sub_cancel_left,scan_last j acc hline hf hne,hstring]
    rfl
  | f :: g :: fs,pre,j,acc,hline,hrow,_ => by
    obtain ⟨hne,hf⟩ := hrow.field f List.mem_cons_self
    have htail : Row (g :: fs) := ⟨by simp,fun f hf => hrow.field f (List.mem_cons_of_mem _ hf)⟩
    have hrest : join ',' (g :: fs) ≠ [] :=
      join_ne_nil htail.ne_nil fun f hf => (htail.field f hf).1
    let before := pre ++ f ++ [',']
    have hbefore : before.length = pre.length + f.length + 1 := by simp [before,Nat.add_assoc]
    have hsplit : line = before ++ join ',' (g :: fs) := by
      rw [hline]
      simp [before,join]
    have hlength : line.length - pre.length = f.length + 1 + (line.length - before.length) := by
      have hle := congrArg List.length hsplit
      rw [List.length_append] at hle
      omega
    obtain ⟨strings,hpassed,hbegins⟩ := scan_fields (j+1)
      (acc ++ [(j,substr line pre.length (pre.length + f.length))]) hsplit htail
      (Or.inr (by simp [before]))
    refine ⟨substr line pre.length (pre.length + f.length) :: strings,?_,
      List.Forall₂.cons ?_ hbegins⟩
    · have hturns := scan_field j acc hline hf hrest
      rw [hlength,← List.range'_append_1,List.foldl_append,hturns,← Nat.add_assoc,← hbefore,hpassed,
        List.append_assoc]
      rfl
    · rw [substr,hline,List.drop_left]
      exact begins_take (by omega)

theorem scanLine_row {fs : List (List Char)} (hrow : Row fs) (hlong : 2 ≤ fs.length) :
    ∃ strings, (scanLine (join ',' fs)).passed = (List.range fs.length).zip strings ∧
      List.Forall₂ (Begins ',') fs strings := by
  obtain ⟨strings,hpassed,hbegins⟩ := scan_fields 0 []
    (show join ',' fs = [] ++ join ',' fs from rfl) hrow (Or.inl hlong)
  refine ⟨strings,?_,hbegins⟩
  rw [List.range_eq_range',scanLine,List.range_eq_range']
  exact hpassed

/-- The only field of a line loses its last character. -/
theorem scanLine_single {f : List Char} (hrow : Row [f]) :
    (scanLine (join ',' [f])).passed = [(0,f.dropLast)] := by
  obtain ⟨hne,hf⟩ := hrow.field f List.mem_cons_self
  have hlast := scan_last 0 [] (show f = [] ++ f from rfl) hf hne
  rw [scanLine,List.range_eq_range',join]
  refine (congrArg Scan.passed hlast).trans ?_
  rw [List.dropLast_eq_take]
  rfl

theorem scanLine_places {fs : List (List Char)} (hrow : Row fs) :
    (scanLine (join ',' fs)).passed.map Prod.fst = List.range fs.length := by
  by_cases hlong : 2 ≤ fs.length
  · obtain ⟨strings,hpassed,hbegins⟩ := scanLine_row hrow hlong
    rw [hpassed,List.map_fst_zip]
    rw [List.length_range,hbegins.length_eq]
  · obtain ⟨f,rfl⟩ := List.length_eq_one_iff.mp (by
      have hpos := List.length_pos_iff.mpr hrow.ne_nil
      omega : fs.length = 1)
    rw [scanLine_single hrow]
    rfl

variable {j} in
theorem begins_of_mem {fs : List (List Char)} (hrow : Row fs) (hlong : 2 ≤ fs.length) {f s : List Char}
    (hf : fs[j]? = some f) (hs : (j,s) ∈ (scanLine (join ',' fs)).passed) : Begins ',' f s := by
  obtain ⟨strings,hpassed,hbegins⟩ := scanLine_row hrow hlong
  rw [hpassed] at hs
  obtain ⟨t,ht⟩ := List.mem_iff_getElem?.mp hs
  obtain ⟨hindex,hstring⟩ := List.getElem?_zip_eq_some.mp ht
  obtain ⟨_,hj⟩ := List.getElem?_eq_some_iff.mp hindex
  rw [List.getElem_range] at hj
  subst hj
  exact (List.forall₂_iff_zip.mp hbegins).2
    (List.mem_of_getElem? (List.getElem?_zip_eq_some.mpr ⟨hf,hstring⟩))

end Line

def fieldAt (rows : List (List (List Char))) (i j : Nat) : Option (List Char) :=
  rows[i]?.bind fun fs => fs[j]?

section File
variable {file : List Char} {rows : List (List (List Char))}
  (hlines : getlines file = rows.map (join ',')) (hrows : ∀ fs ∈ rows, Row fs) {i j : Nat}
  {f s : List Char}
include hlines

theorem mem_passed : ((i,j),s) ∈ passed file ↔
    ∃ fs, rows[i]? = some fs ∧ (j,s) ∈ (scanLine (join ',' fs)).passed := by
  simp only [passed,hlines,List.mem_flatMap,List.mem_map,Prod.exists,List.mem_zipIdx_iff_getElem?,
    List.getElem?_map,Option.map_eq_some_iff,Prod.mk.injEq]
  constructor
  · rintro ⟨_,_,⟨fs,hfs,rfl⟩,_,_,hs,⟨rfl,rfl⟩,rfl⟩
    exact ⟨fs,hfs,hs⟩
  · rintro ⟨fs,hfs,hs⟩
    exact ⟨_,i,⟨fs,hfs,rfl⟩,j,s,hs,⟨rfl,rfl⟩,rfl⟩

include hrows

theorem passed_places : (passed file).map Prod.fst =
    rows.zipIdx.flatMap fun e => (List.range e.1.length).map fun j => (e.2,j) := by
  rw [passed,hlines,List.zipIdx_map,List.flatMap_map,List.map_flatMap]
  refine List.flatMap_congr fun e he => ?_
  have hrow : Row e.1 := hrows _ (List.mem_of_getElem? (List.mem_zipIdx_iff_getElem?.mp he))
  rw [← scanLine_places hrow,List.map_map,List.map_map]
  rfl

theorem nodup_passed : ((passed file).map Prod.fst).Nodup := by
  rw [passed_places hlines hrows,List.nodup_flatMap]
  refine ⟨fun e _ => List.nodup_range.map fun _ _ h => congrArg Prod.snd h,?_⟩
  have hindex : (rows.zipIdx.map Prod.snd).Nodup := by
    rw [List.zipIdx_map_snd]
    exact List.nodup_range'
  refine (List.pairwise_map.mp hindex).imp fun hne w hw hw' => ?_
  obtain ⟨_,_,rfl⟩ := List.mem_map.mp hw
  obtain ⟨_,_,heq⟩ := List.mem_map.mp hw'
  exact hne (congrArg Prod.fst heq).symm

theorem mem_places : (i,j) ∈ (passed file).map Prod.fst ↔ (fieldAt rows i j).isSome := by
  rw [passed_places hlines hrows]
  simp only [List.mem_flatMap,List.mem_map,List.mem_range,Prod.exists,Prod.mk.injEq,
    List.mem_zipIdx_iff_getElem?,fieldAt]
  constructor
  · rintro ⟨fs,_,hfs,_,hj,rfl,rfl⟩
    simp [hfs,hj]
  · intro h
    cases hfs : rows[i]? with
    | none => simp [hfs] at h
    | some fs =>
      have hj : j < fs.length := by simpa [hfs] using h
      exact ⟨fs,i,hfs,j,hj,rfl,rfl⟩

theorem begins_of_passed (hlong : ∀ fs ∈ rows, 2 ≤ fs.length) (hf : fieldAt rows i j = some f)
    (hs : ((i,j),s) ∈ passed file) : Begins ',' f s := by
  obtain ⟨fs,hfs,hs⟩ := (mem_passed hlines).mp hs
  rw [fieldAt,hfs,Option.bind_some] at hf
  have hmem := List.mem_of_getElem? hfs
  exact begins_of_mem (hrows fs hmem) (hlong fs hmem) hf hs

theorem begins_iff : (∀ i j f s, fieldAt rows i j = some f → ((i,j),s) ∈ passed file →
    Begins ',' f s) ↔ ∀ fs ∈ rows, 2 ≤ fs.length := by
  refine ⟨fun h fs hfs => ?_,fun hlong i j f s => begins_of_passed hlines hrows hlong⟩
  by_contra hshort
  obtain ⟨f,rfl⟩ := List.length_eq_one_iff.mp (by
    have hpos := List.length_pos_iff.mpr (hrows fs hfs).ne_nil
    omega : fs.length = 1)
  obtain ⟨i,hi⟩ := List.mem_iff_getElem?.mp hfs
  have hs : ((i,0),f.dropLast) ∈ passed file := by
    refine (mem_passed hlines).mpr ⟨[f],hi,?_⟩
    rw [scanLine_single (hrows _ hfs)]
    exact List.mem_singleton_self _
  have hle := (h i 0 f _ (by rw [fieldAt,hi]; rfl) hs).length_le
  have hpos := List.length_pos_iff.mpr ((hrows _ hfs).field f List.mem_cons_self).1
  rw [List.length_dropLast] at hle
  omega

theorem readWith_cell {F : Type} {D : Doubles F} {P : List Char → Prop} {value : List Char → F}
    (hD : D.ReadsNumerals P value) (hP : ∀ f, P f → ',' ∉ f) {cols : Nat}
    (hlong : ∀ fs ∈ rows, 2 ≤ fs.length ∧ fs.length ≤ cols) (hf : fieldAt rows i j = some f)
    (hnumeral : P f) (store : F → Int) (output : Nat → Int) :
    readWith (fun s => store (D.atof s)) output cols (some file) (i*cols + j) =
      store (value f) := by
  have hplace : ∀ {i j f}, fieldAt rows i j = some f → j < cols := by
    intro i j f hf
    obtain ⟨fs,hfs,hf⟩ := Option.bind_eq_some_iff.mp hf
    obtain ⟨hj,-⟩ := List.getElem?_eq_some_iff.mp hf
    exact Nat.lt_of_lt_of_le hj (hlong fs (List.mem_of_getElem? hfs)).2
  have hfound : ∀ {i j s}, ((i,j),s) ∈ passed file → ∃ f, fieldAt rows i j = some f := by
    intro i j s hs
    exact Option.isSome_iff_exists.mp
      ((mem_places hlines hrows).mp (List.mem_map_of_mem (f := Prod.fst) hs))
  have hatof : ∀ {s}, ((i,j),s) ∈ passed file → D.atof s = value f := by
    intro s hs
    have hbegins := begins_of_passed hlines hrows (fun fs hfs => (hlong fs hfs).1) hf hs
    exact hD s f (hbegins.longest hP hnumeral)
  have hfold : readWith (fun s => store (D.atof s)) output cols (some file) =
      ((passed file).map fun w => (w.1.1*cols + w.1.2,store (D.atof w.2))).foldl
        (fun f e => Function.update f e.1 e.2) output := by
    rw [List.foldl_map]
    rfl
  rw [hfold]
  refine foldl_update _ (fun e he hcell => ?_) _ (Or.inr ?_)
  · obtain ⟨⟨⟨i',j'⟩,s⟩,hs,rfl⟩ := List.mem_map.mp he
    obtain ⟨f',hf'⟩ := hfound hs
    obtain ⟨rfl,rfl⟩ := eq_of_blocks (hplace hf') (hplace hf) hcell
    exact congrArg store (hatof hs)
  · have hmem : (i,j) ∈ (passed file).map Prod.fst :=
      (mem_places hlines hrows).mpr (by rw [hf]; rfl)
    obtain ⟨w,hw,hplace⟩ := List.mem_map.mp hmem
    refine ⟨_,List.mem_map_of_mem hw,?_⟩
    rw [hplace]

end File

/-- Every field has one string, which begins with the whole field exactly if no line has a
single field; then the outputs are those of the whole numerals. -/
theorem readFile_iff {F : Type} (D : Doubles F) {P : List Char → Prop} {value : List Char → F}
    (hD : D.ReadsNumerals P value) (hP : ∀ f, P f → f ≠ [] ∧ ',' ∉ f) {file : List Char}
    {rows : List (List (List Char))} (hlines : getlines file = rows.map (join ','))
    (hrows : ∀ fs ∈ rows, fs ≠ [] ∧ ∀ f ∈ fs, P f) :
    (((passed file).map Prod.fst).Nodup ∧
      ∀ i j, (i,j) ∈ (passed file).map Prod.fst ↔ (fieldAt rows i j).isSome) ∧
    ((∀ i j f s, fieldAt rows i j = some f → ((i,j),s) ∈ passed file → Begins ',' f s) ↔
      ∀ fs ∈ rows, 2 ≤ fs.length) ∧
    ∀ cols, (∀ fs ∈ rows, 2 ≤ fs.length ∧ fs.length ≤ cols) →
      ∀ i j f, fieldAt rows i j = some f → ∀ output fractional n,
        D.readFile output cols fractional (some file) (i*cols + j) =
          D.roundf (D.times (value f) (D.ofLint fractional)) ∧
        D.readX output cols (some file) (i*cols + j) = D.roundf (value f) ∧
        D.readB output cols fractional (some file) n (i*cols + j) =
          D.roundf (D.times (value f) (D.pow (D.ofLint fractional) n)) := by
  have hrow : ∀ fs ∈ rows, Row fs := fun fs hfs =>
    ⟨(hrows fs hfs).1,fun f hf => hP f ((hrows fs hfs).2 f hf)⟩
  refine ⟨⟨nodup_passed hlines hrow,fun i j => mem_places hlines hrow⟩,begins_iff hlines hrow,
    fun cols hlong i j f hf output fractional n => ?_⟩
  have hnumeral : P f := by
    obtain ⟨fs,hfs,hfield⟩ := Option.bind_eq_some_iff.mp hf
    exact (hrows fs (List.mem_of_getElem? hfs)).2 f (List.mem_of_getElem? hfield)
  have hcell := fun store =>
    readWith_cell hlines hrow hD (fun f hf => (hP f hf).2) hlong hf hnumeral store output
  exact ⟨hcell fun x => D.roundf (D.times x (D.ofLint fractional)),hcell D.roundf,
    hcell fun x => D.roundf (D.times x (D.pow (D.ofLint fractional) n))⟩

def IsDigits (f : List Char) : Prop := f ≠ [] ∧ ∀ c ∈ f, c.isDigit

def digitsValue (f : List Char) : Nat := f.foldl (fun x c => 10*x + (c.toNat - '0'.toNat)) 0

def digitNumbers : Doubles Nat where
  atof s := digitsValue (s.takeWhile Char.isDigit)
  ofLint x := x
  times x y := x*y
  pow x n := x^n
  roundf x := x

theorem digitNumbers_reads : digitNumbers.ReadsNumerals IsDigits digitsValue :=
  fun _ _ h => congrArg digitsValue h.eq_takeWhile

theorem readFile_iff_two_lines :
    digitNumbers.readFile (fun _ => 7) 2 10
      (some ['1','2',',','3','\n','4',',','5','6']) 3 = 560 := by
  have hlines : getlines ['1','2',',','3','\n','4',',','5','6'] =
      [[['1','2'],['3']],[['4'],['5','6']]].map (join ',') := by decide
  have h := (readFile_iff digitNumbers digitNumbers_reads
    (fun f hf => ⟨hf.1,fun hc => absurd (hf.2 _ hc) (by decide)⟩) hlines
    (by simp [IsDigits,Char.isDigit])).2.2 2 (by decide) 1 1 ['5','6'] rfl (fun _ => 7) 10 0
  exact h.1.trans (by decide)

/-- A line with the single number 12 is read as 1. -/
theorem readFile_single_field :
    getlines ['1','2','\n'] = [[['1','2']]].map (join ',') ∧ IsDigits ['1','2'] ∧
      ((0,0),['1']) ∈ passed ['1','2','\n'] ∧ ¬ Begins ',' ['1','2'] ['1'] ∧
      digitNumbers.readX (fun _ => 7) 1 (some ['1','2','\n']) 0 = 1 := by
  refine ⟨by decide,⟨by simp,by simp [Char.isDigit]⟩,by decide,fun h => ?_,by decide⟩
  exact absurd h.length_le (by decide)

end RssRing
