import Xv6.Vm.Segments

/-!
# Where a program is loaded to

This module says for which files loading stays within the pages allocated for the new
address space.
-/

namespace Xv6

open Program

variable {layout : Layout} {live : Nat → Prop} {d : Nat} {vm vm' vm'' : Vm}
  {stops : Stop → Prop} {file : Executable} {args : List (Fin usertop)} {oldsz newsz : Nat}
  {result : Int} {post : Nat → Vm → Prop} {size : Nat}

/-! ## Loading the segments -/

/-- Pages are handed out from the answers only. -/
structure Draws (vm vm' : Vm) : Prop where
  granted : ∀ {grant}, grant ∈ vm.granted → grant ∈ vm'.granted
  answers : ∀ {answer}, answer ∈ vm'.answers → answer ∈ vm.answers
  drawn : ∀ {grant}, grant ∈ vm'.granted → grant ∈ vm.granted ∨ some grant.2 ∈ vm.answers

namespace Draws

theorem refl : Draws vm vm := ⟨id, id, .inl⟩

theorem trans (first : Draws vm vm') (second : Draws vm' vm'') : Draws vm vm'' where
  granted member := second.granted (first.granted member)
  answers member := first.answers (second.answers member)
  drawn member := (second.drawn member).elim first.drawn fun answer => .inr (first.answers answer)

theorem of_kept (kept : Kept layout live d vm vm') : Draws vm vm' :=
  ⟨kept.granted, kept.answers, kept.drawn⟩

theorem of_eq (granted : vm'.granted = vm.granted) (answers : vm'.answers = vm.answers) :
    Draws vm vm' :=
  ⟨fun member => granted ▸ member, fun member => answers ▸ member,
    fun member => .inl (granted ▸ member)⟩

end Draws

theorem pages_between_iff {oldsz newsz va : Nat} :
    pgroundup oldsz / pgsize ≤ va / pgsize ∧ va / pgsize * pgsize < newsz ↔
      pgroundup oldsz ≤ va ∧ va < pgroundup newsz := by
  simp only [pgroundup, pgsize]
  omega

theorem pgroundup_le_usertop (fits : size ≤ usertop) : pgroundup size ≤ usertop := by
  simp only [pgroundup, pgsize, usertop] at *
  omega

theorem Space.grown (space : Space layout live d (pgroundup oldsz) vm)
    (order : oldsz ≤ newsz) (fits : newsz ≤ usertop)
    (grown : Grown layout live d (pgroundup oldsz) newsz vm vm') :
    Space layout live d (pgroundup newsz) vm' := by
  have more := pgroundup_mono order
  have bound := pgroundup_le_usertop fits
  refine ⟨grown.sound, space.isLive, fun i => ?_, fun va small => ?_, fun va below => ?_,
    pgroundup_mod, bound⟩
  · rw [grown.tables, space.tables]
  · by_cases added : pgroundup oldsz ≤ va ∧ va < pgroundup newsz
    · have pages := pages_between_iff.mpr added
      exact iff_of_true (grown.inside va small pages.1 pages.2).1 (.inl added.2)
    · rw [grown.outside va small (mt pages_between_iff.mp added), space.present va small]
      refine or_congr_left ?_
      omega
  · have small : va < 2 ^ 32 := lt_of_lt_usertop (below.trans_le bound)
    by_cases added : pgroundup oldsz ≤ va
    · have pages := pages_between_iff.mpr ⟨added, below⟩
      exact (grown.inside va small pages.1 pages.2).2
    · rw [grown.outside va small fun pages => added (pages_between_iff.mp pages).1]
      exact grown.granted (space.backed va (not_le.mp added))

/-- The pages left for user memory. -/
def pagesLeft (sz : Nat) : Nat := pagesBetween (pgroundup sz) usertop

theorem pagesLeft_eq (order : oldsz ≤ newsz) (fits : newsz ≤ usertop) :
    pagesLeft newsz + pagesBetween (pgroundup oldsz) newsz = pagesLeft oldsz := by
  simp only [pagesLeft, pagesBetween, pgroundup, pgsize, usertop] at *
  omega

theorem Space.wp_allocuvm (space : Space layout live d (pgroundup oldsz) vm)
    (fails : ∀ vm', (newsz ≤ usertop → ¬Supply layout (pagesLeft oldsz) vm) →
      Sound layout live vm'.toMemory → Draws vm vm' → post 0 vm')
    (grows : ∀ vm', newsz ≤ usertop → Space layout live d (pgroundup (max oldsz newsz)) vm' →
      Draws vm vm' →
      (Supply layout (pagesLeft oldsz) vm → Supply layout (pagesLeft (max oldsz newsz)) vm') →
      post (max oldsz newsz) vm') : Wp (allocuvm layout d oldsz newsz) post stops vm := by
  have table : (vm.page d 0).present = true := (space.tables 0).mpr (.inl (by decide))
  refine Xv6.wp_allocuvm space.sound space.isLive table ?_ ?_ ?_ ?_ ?_
  · intro va from' _ below present
    rw [space.present va (lt_of_lt_usertop below)] at present
    simp only [usertop] at below present
    omega
  · exact fun tooLarge => fails vm (fun fits => absurd tooLarge (by omega)) space.sound .refl
  · intro shrinks fits
    have same := grows vm fits
    rw [max_eq_left shrinks.le] at same
    exact same space .refl id
  · intro vm₁ vm' high order fits starved grown _ dropped
    refine fails vm' (fun _ supply => starved (supply.mono ?_)) dropped.sound
      ((Draws.of_kept grown.toKept).trans (.of_eq dropped.granted dropped.answers))
    exact (Nat.le_add_left _ _).trans_eq (pagesLeft_eq order fits)
  · intro vm' order fits grown supplies
    have result := grows vm' fits
    rw [max_eq_right order] at result
    refine result (space.grown order fits grown) (.of_kept grown.toKept) fun supply =>
      supplies ?_
    rwa [pagesLeft_eq order fits]

/-- Where the first segment that cannot be loaded is written to. -/
def firstStray (size : Nat) (segs : List Segment) : Option Nat :=
  (segs.find? fun seg => ¬seg.Loadable size).map Segment.strayFrame

/-- What loading segments does. -/
structure LoadedAll (layout : Layout) (live : Nat → Prop) (d size sz : Nat)
    (segs : List Segment) (vm : Vm) (outcome : Option Nat × Pieces) (vm' : Vm) : Prop where
  sound : Sound layout live vm'.toMemory
  draws : Draws vm vm'
  space : ∀ sz', outcome.1 = some sz' → sz' ≤ usertop ∧ Space layout live d (pgroundup sz') vm'
  confined : (∀ seg ∈ segs, seg.Loadable size) → ∀ x, Touched outcome.2 x →
    ∃ page, (.user d page, x / pgsize) ∈ vm'.granted
  stray : ∀ frame, firstStray size segs = some frame → Supply layout (pagesLeft sz) vm →
    ∃ x, Touched outcome.2 x ∧ x / pgsize = frame

namespace LoadedAll

variable {sz sz' : Nat} {seg : Segment} {segs rest : List Segment} {pieces : Pieces}

theorem bad (sound : Sound layout live vm'.toMemory) (draws : Draws vm vm')
    (starved : segs = [] ∨ ¬Supply layout (pagesLeft sz) vm) :
    LoadedAll layout live d size sz segs vm (none, []) vm' where
  sound := sound
  draws := draws
  space := nofun
  confined _ x nothing := absurd nothing touched_nil
  stray frame first supply := by
    rcases starved with rfl | starved
    · simp [firstStray] at first
    · exact absurd supply starved

theorem cut (sound : Sound layout live vm'.toMemory) (draws : Draws vm vm')
    (loaded : seg.Loaded size d vm' (result, pieces)) (failed : result < 0) :
    LoadedAll layout live d size sz (seg :: if seg.Complete size then rest else []) vm
      (none, pieces) vm' where
  sound := sound
  draws := draws
  space := nofun
  confined good := loaded.confined (good seg List.mem_cons_self)
  stray frame first _ := by
    by_cases loadable : seg.Loadable size
    · have incomplete : ¬seg.Complete size := fun complete =>
        absurd ((loaded.complete loadable).mpr complete) (not_le.mpr failed)
      simp [firstStray, loadable, incomplete] at first
    · obtain rfl : seg.strayFrame = frame := by simpa [firstStray, loadable] using first
      exact loaded.stray loadable

theorem cons {outcome : Option Nat × Pieces} (draws : Draws vm vm')
    (supplies : Supply layout (pagesLeft sz) vm → Supply layout (pagesLeft sz') vm')
    (loaded : seg.Loaded size d vm' (result, pieces)) (passed : 0 ≤ result)
    (others : LoadedAll layout live d size sz' rest vm' outcome vm'') :
    LoadedAll layout live d size sz (seg :: if seg.Complete size then rest else []) vm
      (outcome.1, pieces ++ outcome.2) vm'' where
  sound := others.sound
  draws := draws.trans others.draws
  space := others.space
  confined good x touched := by
    have loadable := good seg List.mem_cons_self
    rw [if_pos ((loaded.complete loadable).mp passed)] at good
    rcases touched_append.mp touched with first | later
    · obtain ⟨page, granted⟩ := loaded.confined loadable x first
      exact ⟨page, others.draws.granted granted⟩
    · exact others.confined (fun seg' member => good seg' (List.mem_cons_of_mem _ member)) x later
  stray frame first supply := by
    by_cases loadable : seg.Loadable size
    · have complete := (loaded.complete loadable).mp passed
      have later : firstStray size rest = some frame := by
        simpa [firstStray, loadable, complete] using first
      obtain ⟨x, touched, same⟩ := others.stray frame later (supplies supply)
      exact ⟨x, touched_append.mpr (.inr touched), same⟩
    · obtain rfl : seg.strayFrame = frame := by simpa [firstStray, loadable] using first
      obtain ⟨x, touched, same⟩ := loaded.stray loadable
      exact ⟨x, touched_append.mpr (.inl touched), same⟩

end LoadedAll

theorem wp_loadSegments {n sz : Nat} {off : Uint} (bound : sz ≤ usertop)
    (space : Space layout live d (pgroundup sz) vm) {post : Option Nat × Pieces → Vm → Prop}
    (panics : ∀ seg ∈ file.plan n off sz, ¬seg.Loadable file.size → ∀ stop, stops stop)
    (ends : ∀ outcome vm', LoadedAll layout live d file.size sz (file.plan n off sz) vm
      outcome vm' → post outcome vm') : Wp (loadSegments layout d file n off sz) post stops vm := by
  induction n generalizing off sz vm post with
  | zero =>
    refine ends _ vm ⟨space.sound, .refl, ?_, ?_, ?_⟩
    · rintro _ ⟨⟩
      exact ⟨bound, space⟩
    · exact fun _ x nothing => absurd nothing touched_nil
    · simp [Executable.plan, firstStray]
  | succ n ih =>
    rw [loadSegments, wp_bind]
    refine wp_read (by decide) fun _ _ => ?_
    rw [Executable.plan] at panics ends
    have short : (if off.val ≤ file.size.val then
        ((min proghdrSize (file.size.val - off.val) : Nat) : Int) else -1) ≠ proghdrSize ↔
          file.size.val < off.val + proghdrSize := by
      simp only [proghdrSize]
      split <;> omega
    rw [wp_ite, short]
    refine ⟨fun cut => ?_, fun whole => ?_⟩
    · simp only [if_pos cut] at ends
      exact ends _ vm (.bad space.sound .refl (.inl rfl))
    simp only [if_neg whole] at panics ends
    rw [wp_ite]
    refine ⟨fun other => ?_, fun load => ?_⟩
    · simp only [if_pos other] at panics ends
      exact ih bound space panics ends
    simp only [if_neg load] at panics ends
    generalize file.proghdr off = ph at *
    generalize newsz_eq : (ph.va.plus ph.memsz).val = newsz at *
    rw [wp_ite]
    refine ⟨fun smaller => ?_, fun larger => ?_⟩
    · simp only [if_pos (Or.inl smaller)] at ends
      exact ends _ vm (.bad space.sound .refl (.inl rfl))
    rw [wp_bind]
    refine space.wp_allocuvm (fun vm' starved sound draws => ?_)
      fun vm' fits space' draws supplies => ?_
    · rw [if_pos rfl]
      refine ends _ vm' (.bad sound draws ?_)
      rcases le_or_gt newsz usertop with fits | tooLarge
      · exact .inr (starved fits)
      · exact .inl (if_pos (.inr (.inl tooLarge)))
    rw [wp_ite]
    refine ⟨fun zero => ?_, fun nonzero => ?_⟩
    · exact ends _ vm' (.bad space'.sound draws (.inl (if_pos (.inr (.inr zero)))))
    have reached : ¬(ph.memsz < ph.filesz ∨ newsz > usertop ∨ max sz newsz = 0) := by
      simp only [larger, nonzero, or_false, false_or]
      omega
    simp only [if_neg reached] at panics ends
    let seg : Segment := ⟨ph, pgroundup (max sz newsz)⟩
    rw [wp_bind]
    refine wp_loaduvm seg space' (panics seg List.mem_cons_self)
      fun outcome loaded => ?_
    rw [wp_ite]
    refine ⟨fun failed => ?_, fun passed => ?_⟩
    · exact ends _ vm' (.cut space'.sound draws loaded failed)
    rw [wp_bind]
    refine ih (max_le bound fits) space' ?_ fun outcome' vm'' others =>
      ends _ vm'' (.cons draws supplies loaded (not_lt.mp passed) others)
    intro later member bad
    by_cases loadable : seg.Loadable file.size
    · have complete := (loaded.complete loadable).mp (not_lt.mp passed)
      refine panics later (List.mem_cons_of_mem _ ?_) bad
      rwa [if_pos complete]
    · exact panics seg List.mem_cons_self loadable

/-! ## The stack -/

theorem wp_uva2ka {top va : Nat} (space : Space layout live d top vm) (small : va < 2 ^ 32)
    (table : (vm.page d (PDX va)).present = true)
    (ends : ∀ frame, (usertop ≤ va → frame = 0) → post frame vm) :
    Wp (uva2ka layout d va) post stops vm := by
  simp only [uva2ka, wp_bind, wp_walkpgdir, if_pos table, wp_get, Memory.page_of_table table]
  rcases space.sound.entry space.isLive small with zero | ⟨present, allowed⟩
  · simp only [zero, Pte.present_zero, if_true]
    exact ends 0 fun _ => rfl
  · rw [if_neg (by simp [present]), wp_ite]
    refine ⟨fun _ => ends 0 fun _ => rfl, fun user => ends _ fun above => ?_⟩
    simp only [Pte.Allowed, not_lt.mpr above, if_false] at allowed
    exact absurd allowed.1 user

theorem wp_copyout {top va len : Nat} (space : Space layout live d top vm)
    (place : va + len ≤ usertop ∨ 2 ^ 32 - 2 ^ 22 ≤ va ∧ va < 2 ^ 32 ∧ 0 < len)
    {post : Int → Vm → Prop} (ends : ∀ result, (0 ≤ result → va + len ≤ usertop) → post result vm) :
    Wp (copyout layout d va len) post stops vm := by
  induction len using Nat.strong_induction_on generalizing va with
  | _ len ih =>
    rw [copyout]
    by_cases more : len > 0
    · rw [dif_pos more, wp_bind]
      have small : pgrounddown va < 2 ^ 32 := by
        simp only [pgrounddown, pgsize, usertop] at *
        omega
      have table : (vm.page d (PDX (pgrounddown va))).present = true := by
        rw [space.table_iff]
        simp only [PDX, nptentries, pgrounddown, pgsize, usertop] at *
        omega
      refine wp_uva2ka space small table fun frame kernel => ?_
      rw [wp_ite]
      refine ⟨fun _ => ends (-1) (by simp), fun found => ?_⟩
      have user : va + len ≤ usertop := by
        refine place.resolve_right fun wrapped => found (kernel ?_)
        simp only [pgrounddown, pgsize, usertop] at *
        omega
      have next : toUint (pgrounddown va + pgsize) +
          (len - min (pgsize - (va - pgrounddown va)) len) ≤ usertop := by
        simp only [toUint, pgrounddown, pgsize, usertop] at *
        omega
      refine ih _ ?_ (.inl next) fun result _ => ends result fun _ => user
      simp only [pgrounddown, pgsize]
      omega
    · rw [dif_neg more]
      exact ends 0 fun _ => by omega

theorem stack_place {sp sp' len : Nat} (below : sp ≤ usertop) (short : len ≤ usertop)
    (positive : 0 < len) (low : toUint (sp - len) < sp' + 4) (high : sp' ≤ toUint (sp - len)) :
    sp' + len ≤ usertop ∨ 2 ^ 32 - 2 ^ 22 ≤ sp' ∧ sp' < 2 ^ 32 ∧ 0 < len := by
  simp only [toUint, usertop] at *
  omega

theorem wp_pushArgs {top argc sp : Nat}
    (space : Space layout live d top vm) (count : argc ≤ maxarg) (below : sp ≤ usertop)
    {post : Option (Nat × Nat) → Vm → Prop} (fails : post none vm)
    (pushes : ∀ argc sp, argc ≤ maxarg → sp ≤ usertop → post (some (argc, sp)) vm) :
    Wp (pushArgs layout d args argc sp) post stops vm := by
  induction args generalizing argc sp with
  | nil => exact pushes argc sp count below
  | cons arg rest ih =>
    rw [pushArgs, wp_ite]
    refine ⟨fun _ => fails, fun fewer => ?_⟩
    rw [wp_bind]
    have place := stack_place below arg.isLt arg.val.succ_pos (Nat.lt_div_mul_add (by decide))
      (Nat.div_mul_le_self _ 4)
    refine wp_copyout space place fun result inside => ?_
    rw [wp_ite]
    refine ⟨fun _ => fails, fun passed => ?_⟩
    exact ih (by omega) ((Nat.le_add_right _ _).trans (inside (not_lt.mp passed)))

theorem wp_buildStack {size : Option Nat} (sound : Sound layout live vm.toMemory)
    (loaded : ∀ sz, size = some sz → sz ≤ usertop ∧ Space layout live d (pgroundup sz) vm)
    {post : Bool → Vm → Prop}
    (ends : ∀ complete vm', Sound layout live vm'.toMemory → Draws vm vm' → post complete vm') :
    Wp (buildStack layout d args size) post stops vm := by
  cases size with
  | none => exact ends false vm sound .refl
  | some sz => ?_
  have bound := (loaded sz rfl).1
  have space := (loaded sz rfl).2
  have idem : pgroundup (pgroundup sz) = pgroundup sz := by
    simp only [pgroundup, pgsize]
    omega
  have space : Space layout live d (pgroundup (pgroundup sz)) vm := by rwa [idem]
  have bound' := pgroundup_le_usertop bound
  simp only [buildStack]
  generalize toUint (pgroundup sz + pgsize) = newsz
  rw [wp_bind]
  refine space.wp_allocuvm (fun vm' _ sound draws => ?_)
    fun vm' fits space' draws _ => ?_
  · rw [if_pos rfl]
    exact ends false vm' sound draws
  rw [wp_ite]
  refine ⟨fun _ => ends false vm' space'.sound draws, fun _ => ?_⟩
  rw [wp_bind]
  refine wp_pushArgs space' (Nat.zero_le _) (max_le bound' fits)
    (ends false vm' space'.sound draws) fun argc sp count below => ?_
  have short : (3 + argc + 1) * 4 ≤ usertop := by
    simp only [maxarg, usertop] at *
    omega
  have place := stack_place below short (by omega) (Nat.lt_add_of_pos_right (by decide)) le_rfl
  rw [wp_bind]
  exact wp_copyout space' place fun result _ => ends _ vm' space'.sound draws

/-! ## exec -/

/-- What `exec` does. -/
structure Executed (layout : Layout) (file : Executable) (vm : Vm) (outcome : Int × Pieces)
    (vm' : Vm) : Prop where
  result : outcome.1 = 0 ∨ outcome.1 = -1
  draws : Draws vm vm'
  confined : (∀ seg ∈ file.segments, seg.Loadable file.size) → ∀ x, Touched outcome.2 x →
    ∃ pgdir page, (.directory, pgdir) ∈ vm'.granted ∧
      (.user pgdir page, x / pgsize) ∈ vm'.granted
  stray : ∀ frame, firstStray file.size file.segments = some frame →
    Supply layout (pagesLeft 0 + setupPages) vm → ∃ x, Touched outcome.2 x ∧ x / pgsize = frame

theorem Executed.early (draws : Draws vm vm')
    (starved : file.segments = [] ∨ ¬Supply layout (pagesLeft 0 + setupPages) vm) :
    Executed layout file vm (-1, []) vm' where
  result := .inr rfl
  draws := draws
  confined _ x nothing := absurd nothing touched_nil
  stray frame first supply := by
    rcases starved with none | starved
    · simp [firstStray, none] at first
    · exact absurd supply starved

theorem Space.of_built (built : Built layout live d vm vm') :
    Space layout (fun d' => d' = d ∨ live d') d (pgroundup 0) vm' where
  sound := built.sound
  isLive := .inl rfl
  tables := built.tables
  present va small := by
    rw [built.present va small]
    exact (or_iff_right (Nat.not_lt_zero va)).symm
  backed va below := absurd below (Nat.not_lt_zero va)
  aligned := rfl
  bound := Nat.zero_le _

theorem Executed.of_loaded {vm₁ vm₂ : Vm} {sz : Option Nat} {pieces : Pieces}
    (outcome : result = 0 ∨ result = -1) (loads : file.segments = file.plan file.phnum file.phoff 0)
    (built : Built layout live d vm vm₁)
    (loaded : LoadedAll layout (fun d' => d' = d ∨ live d') d file.size 0
      (file.plan file.phnum file.phoff 0) vm₁ (sz, pieces) vm₂)
    (draws : Draws vm₂ vm') : Executed layout file vm (result, pieces) vm' where
  result := outcome
  draws := (Draws.of_kept built.toKept).trans (loaded.draws.trans draws)
  confined good x touched := by
    obtain ⟨page, granted⟩ := loaded.confined (loads ▸ good) x touched
    exact ⟨d, page, draws.granted (loaded.draws.granted built.obtained), draws.granted granted⟩
  stray frame first supply := loaded.stray frame (loads ▸ first) (built.supply supply)

theorem wp_exec {old : Nat} (sound : Sound layout live vm.toMemory)
    (oldLive : live old) {post : Int × Pieces → Vm → Prop}
    (panics : ∀ seg ∈ file.segments, ¬seg.Loadable file.size → ∀ stop, stops stop)
    (ends : ∀ outcome vm', Executed layout file vm outcome vm' → post outcome vm') :
    Wp (exec layout old file args) post stops vm := by
  rw [exec, wp_bind]
  refine wp_read (by decide) fun _ _ => ?_
  have short : toUint (if (0 : Uint).val ≤ file.size.val then
      ((min elfhdrSize (file.size.val - (0 : Uint).val) : Nat) : Int) else -1) < elfhdrSize ↔
        ¬elfhdrSize ≤ file.size.val := by
    simp only [Fin.val_zero, Nat.zero_le, if_true, Nat.sub_zero, elfhdrSize, toUint]
    omega
  rw [wp_ite, short]
  refine ⟨fun cut => ?_, fun header => ?_⟩
  · exact ends _ vm (.early .refl (.inl (if_neg fun both => cut both.1)))
  rw [wp_ite]
  refine ⟨fun other => ?_, fun magic => ?_⟩
  · exact ends _ vm (.early .refl (.inl (if_neg fun both => other both.2)))
  have loads : file.segments = file.plan file.phnum file.phoff 0 :=
    if_pos ⟨not_not.mp header, not_not.mp magic⟩
  rw [wp_bind]
  refine wp_setupkvm sound (fun vm' starved kept => ?_) fun vm₁ d built => ?_
  · refine ends _ vm' (.early (.of_kept (kept 0)) (.inr fun supply => starved (supply.mono ?_)))
    exact Nat.le_add_left _ _
  rw [wp_bind]
  refine wp_loadSegments (Nat.zero_le _) (.of_built built) (loads ▸ panics)
    fun outcome vm₂ loaded => ?_
  obtain ⟨sz, pieces⟩ := outcome
  rw [wp_bind]
  refine wp_buildStack loaded.sound loaded.space fun complete vm₃ sound₃ draws => ?_
  rw [wp_ite]
  refine ⟨fun _ => ?_, fun _ => ?_⟩
  · rw [wp_bind]
    exact wp_freevm sound₃ (.inr oldLive) fun vm' freed => ends _ vm' (.of_loaded (.inl rfl) loads
      built loaded (draws.trans (.of_eq freed.granted freed.answers)))
  · rw [wp_bind]
    exact wp_freevm sound₃ (.inl rfl) fun vm' freed => ends _ vm' (.of_loaded (.inr rfl) loads
      built loaded (draws.trans (.of_eq freed.granted freed.answers)))

/-- The files that `exec` can do with: in every state of the system, for every process
and whatever pages `kalloc` returns, `exec` does not panic, and `loaduvm` writes only to
pages that were allocated for the memory of the new page directory. -/
def Executable.Confined (layout : Layout) (file : Executable) : Prop :=
  ∀ s, VmSystem.Reachable layout s → ∀ old ∈ s.dirs, ∀ args answers,
    Wp (exec layout old file args)
      (fun outcome vm => (outcome.1 = 0 ∨ outcome.1 = -1) ∧
        ∀ x, Touched outcome.2 x → ∃ pgdir page, (.directory, pgdir) ∈ vm.granted ∧
          (.user pgdir page, x / pgsize) ∈ vm.granted)
      (fun _ => False) ⟨s.memory, answers, []⟩

theorem Executable.confined_of_loadable
    (loadable : ∀ seg ∈ file.segments, seg.Loadable file.size) : file.Confined layout := by
  intro s reachable old member args answers
  exact wp_exec reachable.inv.sound (.inr member)
    (fun seg here bad => absurd (loadable seg here) bad)
    fun outcome vm' executed => ⟨executed.result, executed.confined loadable⟩

theorem firstStray_eq_none_iff {segs : List Segment} :
    firstStray size segs = none ↔ ∀ seg ∈ segs, seg.Loadable size := by
  simp [firstStray]

theorem Executable.not_confined {frame : Nat}
    (stray : firstStray file.size file.segments = some frame) : ¬file.Confined layout := by
  intro confined
  obtain ⟨s, old, reachable, member, -, free⟩ := VmSystem.exists_process layout
  have few : VmSystem.firstFrame layout ≤ 1024 := VmSystem.firstFrame_le
  have count : pagesLeft 0 + setupPages = 175 := by decide
  -- One of the two next stretches of free pages does not contain the frame.
  obtain ⟨first, low, high, avoids⟩ : ∃ first,
      VmSystem.firstFrame layout + 2 * setupPages ≤ first ∧ first + 175 ≤ 4096 ∧
        ¬(first ≤ frame ∧ frame < first + 175) := by
    simp only [setupPages]
    by_cases before : frame < VmSystem.firstFrame layout + 205
    · exact ⟨VmSystem.firstFrame layout + 205, by omega⟩
    · exact ⟨VmSystem.firstFrame layout + 30, by omega⟩
  have supply : Supply layout (pagesLeft 0 + setupPages)
      ⟨s.memory, VmSystem.frames first 175, []⟩ := by
    rw [count]
    exact .range rfl fun page from' below =>
      ⟨VmSystem.inPool_of_le (by omega) (by omega), free page (by omega)⟩
  obtain ⟨outcome, vm, ran, -, written⟩ :=
    (confined s reachable old member [] (VmSystem.frames first 175)).ends
  have executed : Executed layout file ⟨s.memory, VmSystem.frames first 175, []⟩ outcome vm :=
    (wp_exec reachable.inv.sound (.inr member) (fun _ _ _ _ => trivial)
      (fun _ _ executed => executed) : Wp _ (Executed layout file _) (fun _ => True) _).ok ran
  obtain ⟨x, touched, rfl⟩ := executed.stray frame stray supply
  obtain ⟨pgdir, page, -, granted⟩ := written x touched
  rcases executed.draws.drawn granted with none | answer
  · simp at none
  · simp only [VmSystem.frames, List.mem_map, Option.some.injEq, exists_eq_right,
      List.mem_range'_1] at answer
    exact avoids answer

/-- An ELF header with one program header after it, for a segment from the start of the
file: its address and sizes, the lowest byte first. -/
def oneSegment (va filesz memsz : List UInt8) : List UInt8 :=
  [0x7F, 0x45, 0x4C, 0x46] ++ List.replicate 24 0 ++ [52, 0, 0, 0] ++ List.replicate 12 0 ++
    [1, 0] ++ List.replicate 6 0 ++ [1, 0, 0, 0] ++ [0, 0, 0, 0] ++ va ++ [0, 0, 0, 0] ++
    filesz ++ memsz ++ List.replicate 8 0

/-- A segment of 16 bytes at 1 MB, where the kernel is, with the memory size `0xFFF01000`:
its end wraps around to one page. -/
def wrappingElf : Executable :=
  ⟨oneSegment [0, 0, 0x10, 0] [16, 0, 0, 0] [0, 0x10, 0xF0, 0xFF], by decide⟩

/-- The segment passes all checks and overwrites the kernel. -/
theorem wrapped_segment_leaves_space :
    ¬wrappingElf.Confined ⟨0x101000, 0x101000, rfl, by decide, le_rfl, by decide⟩ := by
  have stray : firstStray wrappingElf.size wrappingElf.segments = some 0x100 := by
    decide +kernel
  exact Executable.not_confined stray

/-- Loading a file is confined to the new address space exactly if all the segments that
`exec` comes to are on page boundaries and end within the memory allocated, or the file
ends before. -/
theorem loading_confined_iff : file.Confined layout ↔
    ∀ seg ∈ file.segments, seg.Loadable file.size := by
  refine ⟨fun confined => firstStray_eq_none_iff.mp ?_, Executable.confined_of_loadable⟩
  cases stray : firstStray file.size file.segments with
  | none => rfl
  | some frame => exact absurd confined (Executable.not_confined stray)

/-- A program of one page that is loaded at the start of memory. -/
theorem loading_confined_iff_page : ∃ layout,
    Executable.Confined layout
      ⟨oneSegment [0, 0, 0, 0] [84, 0, 0, 0] [0, 0x10, 0, 0], by decide⟩ :=
  ⟨⟨0x101000, 0x101000, rfl, by decide, le_rfl, by decide⟩,
    loading_confined_iff.mpr (by decide +kernel)⟩

end Xv6
