import ExtrusionProfile.Number.Text
import ExtrusionProfile.Proofs.Path.Canvas
import ExtrusionProfile.Proofs.Path.Groups
import ExtrusionProfile.Proofs.Path.Tokens

/-! Relative commands in absolute coordinates. Adding the current point to the coordinates of
every group, at the moment when the group is drawn, makes a command absolute without changing
what is drawn. -/
namespace ExtrusionProfile
namespace Path

inductive Axis | x | y

/-- Which coordinate of the current point each number of a relative group counts from. Radii,
rotation and flags of an arc count from none. -/
def Family.axes : Family → List (Option Axis)
  | .moveto | .lineto | .smoothQuadratic => [some .x,some .y]
  | .horizontal => [some .x]
  | .vertical => [some .y]
  | .cubic => [some .x,some .y,some .x,some .y,some .x,some .y]
  | .smoothCubic | .quadratic => [some .x,some .y,some .x,some .y]
  | .arc => [none,none,none,none,none,some .x,some .y]
  | .closepath => []

def Axis.absolute (p : Point Float) : Option Axis → Float → Float
  | none,v => v
  | some .x,v => p.x+v
  | some .y,v => p.y+v

/-- A number counted from the origin; one that counts from none keeps its spelling. -/
def Numeral.absolute (spell : Float → List Char) (p : Point Float) (a : Option Axis)
    (n : Numeral) : Numeral :=
  let v := Axis.absolute p a n.value
  ⟨if a.isSome then spell v else n.text,v,n.offset⟩

def absoluteGroup (spell : Float → List Char) (p : Point Float) (f : Family)
    (g : List Numeral) : List Numeral :=
  List.zipWith (Numeral.absolute spell p) f.axes g

/-- The pen behind a group of a command. -/
def Cursor.behind (t : Tessellation) (relative : Bool) (f : Family) (k : Cursor)
    (g : List Numeral) : Cursor :=
  match Segment.ofArguments? f (g.map Numeral.value) with
  | some s => (k.step t relative s).cursor
  | none => k

def Cursor.behindAll (t : Tessellation) (relative : Bool) :
    Family → Cursor → List (List Numeral) → Cursor
  | _,k,[] => k
  | f,k,g::gs => Cursor.behindAll t relative f.repeated (k.behind t relative f g) gs

def Cursor.behindRun (t : Tessellation) (k : Cursor) (r : Run) : Cursor :=
  if r.command.family = .closepath then (k.step t r.command.relative .closepath).cursor
  else k.behindAll t r.command.relative r.command.family r.groups

/-- The groups of a relative command in absolute coordinates; each counts from the point
where the groups before it have taken the pen. -/
def absoluteGroups (t : Tessellation) (spell : Float → List Char) :
    Family → Cursor → List (List Numeral) → List (List Numeral)
  | _,_,[] => []
  | f,k,g::gs =>
    absoluteGroup spell k.current f g::absoluteGroups t spell f.repeated (k.behind t true f g) gs

/-- A run without relative coordinates. The numbers left over stay behind its groups. -/
def Run.absolute (t : Tessellation) (spell : Float → List Char) (k : Cursor) (r : Run) : Run :=
  if r.command.relative then
    ⟨⟨r.command.family,false⟩,r.offset,
      (absoluteGroups t spell r.command.family k r.groups).flatten ++
        r.numbers.drop (r.count*r.command.family.arity)⟩
  else r

def absoluteRuns (t : Tessellation) (spell : Float → List Char) : Cursor → List Run → List Run
  | _,[] => []
  | k,r::rs => r.absolute t spell k::absoluteRuns t spell (k.behindRun t r) rs

/-- Tokens in absolute coordinates throughout. -/
def absolute (t : Tessellation) (spell : Float → List Char) (ts : List Token) : List Token :=
  (runs ts).1.map .number ++ (absoluteRuns t spell .initial (runs ts).2).flatMap Run.tokens

def Note.absolute : Note → Note
  | .underflow c dropped o => .underflow ⟨c.family,false⟩ dropped o
  | .straightArc f o => .straightArc f o

namespace Segment

/-- A segment counted from the origin when the pen is at `p`. -/
def absolute (p : Point Float) : Segment → Segment
  | .moveto q => .moveto (Point.add p q)
  | .lineto q => .lineto (Point.add p q)
  | .horizontal x => .horizontal (p.x+x)
  | .vertical y => .vertical (p.y+y)
  | .cubic c d q => .cubic (Point.add p c) (Point.add p d) (Point.add p q)
  | .smoothCubic d q => .smoothCubic (Point.add p d) (Point.add p q)
  | .quadratic c q => .quadratic (Point.add p c) (Point.add p q)
  | .smoothQuadratic q => .smoothQuadratic (Point.add p q)
  | .arc rx ry rotation large sweep q => .arc rx ry rotation large sweep (Point.add p q)
  | .closepath => .closepath

theorem family_absolute (p : Point Float) (s : Segment) : (s.absolute p).family = s.family := by
  cases s <;> rfl

theorem arguments_absolute (p : Point Float) (s : Segment) :
    (s.absolute p).arguments = List.zipWith (Axis.absolute p) s.family.axes s.arguments := by
  cases s <;> rfl

end Segment

@[simp] theorem Family.length_axes (f : Family) : f.axes.length = f.arity := by cases f <;> rfl

section Groups

variable (t : Tessellation) (spell : Float → List Char)

theorem value_absoluteGroup (p : Point Float) (f : Family) (g : List Numeral) :
    (absoluteGroup spell p f g).map Numeral.value =
      List.zipWith (Axis.absolute p) f.axes (g.map Numeral.value) := by
  rw [absoluteGroup,List.map_zipWith,List.zipWith_map_right]
  rfl

theorem ofArguments?_absoluteGroup (p : Point Float) {f : Family} {g : List Numeral} {s : Segment}
    (h : Segment.ofArguments? f (g.map Numeral.value) = some s) :
    Segment.ofArguments? f ((absoluteGroup spell p f g).map Numeral.value) =
      some (s.absolute p) := by
  obtain ⟨hf,ha⟩ := Segment.ofArguments?_eq_some_iff.mp h
  refine Segment.ofArguments?_eq_some_iff.mpr ⟨(Segment.family_absolute p s).trans hf,?_⟩
  rw [Segment.arguments_absolute,value_absoluteGroup,hf,ha]

theorem offset_absoluteGroup (p : Point Float) {f : Family} {g : List Numeral}
    (h : g.length = f.arity) :
    (absoluteGroup spell p f g).map Numeral.offset = g.map Numeral.offset := by
  rw [absoluteGroup,List.map_zipWith]
  apply List.ext_getElem
  · simp [h]
  · intro i hi hi'
    simp [Numeral.absolute]

theorem length_absoluteGroups (f : Family) (k : Cursor) (gs : List (List Numeral)) :
    (absoluteGroups t spell f k gs).length = gs.length := by
  induction gs generalizing f k with
  | nil => rfl
  | cons g gs ih => simp [absoluteGroups,ih]

theorem complete_absoluteGroups {f : Family} (k : Cursor) {gs : List (List Numeral)}
    (h : f.Complete gs) : f.Complete (absoluteGroups t spell f k gs) := by
  induction gs generalizing f k with
  | nil => exact h
  | cons g gs ih =>
    have ht := ih (k.behind t true f g) h.tail
    refine List.forall_mem_cons.mpr ⟨by simp [absoluteGroup,h.head],fun a ha => ?_⟩
    rw [ht a ha,Family.arity_repeated]

theorem offset_absoluteGroups {f : Family} (k : Cursor) {gs : List (List Numeral)}
    (h : f.Complete gs) :
    (absoluteGroups t spell f k gs).flatten.map Numeral.offset =
      gs.flatten.map Numeral.offset := by
  induction gs generalizing f k with
  | nil => rfl
  | cons g gs ih =>
    have hg := offset_absoluteGroup spell k.current h.head
    have ht := ih (k.behind t true f g) h.tail
    simp [absoluteGroups,hg,ht]

end Groups

section Step

variable (t : Tessellation) (relative : Bool) (o : ℕ)

theorem Cursor.step_absolute (k : Cursor) (s : Segment) :
    k.step t false (s.absolute k.current) = k.step t true s := by
  cases s <;> rfl

/-- A segment in absolute coordinates is drawn as the relative one. -/
theorem Canvas.draw_absolute (k : Canvas) (s : Segment) :
    k.draw t false o (s.absolute k.cursor.current) = k.draw t true o s := by
  unfold draw
  rw [Cursor.step_absolute]
  cases s <;> rfl

theorem Cursor.behind_of_eq_some {f : Family} {g : List Numeral} {s : Segment} (k : Canvas)
    (h : Segment.ofArguments? f (g.map Numeral.value) = some s) :
    k.cursor.behind t relative f g = (k.draw t relative o s).cursor := by
  rw [Canvas.draw_cursor,behind,h]

end Step

namespace Canvas

variable (t : Tessellation) (spell : Float → List Char) (o : ℕ)

theorem cursor_foldl_draw (relative : Bool) {f : Family} {gs : List (List Numeral)}
    (h : f.Complete gs) (k : Canvas) :
    ((segmentsOf f gs).foldl (draw t relative o) k).cursor =
      k.cursor.behindAll t relative f gs := by
  induction gs generalizing f k with
  | nil => rfl
  | cons g gs ih =>
    obtain ⟨s,hs⟩ := h.exists_segment
    have hb := Cursor.behind_of_eq_some t relative o k hs
    rw [segmentsOf,hs,Cursor.behindAll,hb]
    exact ih h.tail _

theorem foldl_draw_absolute {f : Family} {gs : List (List Numeral)} (h : f.Complete gs)
    (k : Canvas) :
    (segmentsOf f (absoluteGroups t spell f k.cursor gs)).foldl (draw t false o) k =
      (segmentsOf f gs).foldl (draw t true o) k := by
  induction gs generalizing f k with
  | nil => rfl
  | cons g gs ih =>
    obtain ⟨s,hs⟩ := h.exists_segment
    have ha := ofArguments?_absoluteGroup spell k.cursor.current hs
    have hb := Cursor.behind_of_eq_some t true o k hs
    rw [absoluteGroups,segmentsOf,segmentsOf,ha,hs,hb]
    simp only [Option.toList_some,List.singleton_append,List.foldl_cons,draw_absolute]
    exact ih h.tail _

end Canvas

namespace Run

variable (t : Tessellation) (spell : Float → List Char) (k : Cursor) (r : Run)

theorem absolute_command : (r.absolute t spell k).command = ⟨r.command.family,false⟩ := by
  unfold absolute
  split
  · rfl
  · rename_i h
    obtain ⟨⟨f,b⟩,_,_⟩ := r
    simp_all

theorem absolute_offset : (r.absolute t spell k).offset = r.offset := by
  unfold absolute
  split <;> rfl

theorem absolute_numbers (h : r.command.relative = true) :
    (r.absolute t spell k).numbers =
      (absoluteGroups t spell r.command.family k r.groups).flatten ++
        r.numbers.drop (r.count*r.command.family.arity) := by
  simp [absolute,h]

theorem length_absoluteGroups_flatten :
    (absoluteGroups t spell r.command.family k r.groups).flatten.length =
      r.count*r.command.family.arity := by
  have hc := complete_absoluteGroups t spell k r.complete_groups
  rw [List.length_flatten,List.map_congr_left hc,List.map_const',List.sum_replicate_nat,
    length_absoluteGroups,groups,pieces_length]

theorem length_absolute_numbers : (r.absolute t spell k).numbers.length = r.numbers.length := by
  by_cases h : r.command.relative = true
  · have hc : r.count*r.command.family.arity ≤ r.numbers.length := Nat.div_mul_le_self _ _
    rw [absolute_numbers t spell k r h,List.length_append,length_absoluteGroups_flatten,
      List.length_drop]
    omega
  · simp [absolute,h]

theorem absolute_numbers_offset :
    (r.absolute t spell k).numbers.map Numeral.offset = r.numbers.map Numeral.offset := by
  by_cases h : r.command.relative = true
  · have hg := offset_absoluteGroups t spell k r.complete_groups
    rw [groups,pieces_flatten] at hg
    rw [absolute_numbers t spell k r h,List.map_append,groups,hg,← List.map_append,
      List.take_append_drop]
  · simp [absolute,h]

theorem absolute_count : (r.absolute t spell k).count = r.count := by
  simp [count,absolute_command,length_absolute_numbers]

theorem absolute_dropped : (r.absolute t spell k).dropped = r.dropped := by
  simp [dropped,absolute_command,absolute_count,length_absolute_numbers]

theorem absolute_groups (h : r.command.relative = true) :
    (r.absolute t spell k).groups = absoluteGroups t spell r.command.family k r.groups := by
  have hl : r.count = (absoluteGroups t spell r.command.family k r.groups).length := by
    simp [length_absoluteGroups,groups]
  rw [groups,absolute_command,absolute_count,absolute_numbers t spell k r h,hl]
  exact pieces_flatten_append (complete_absoluteGroups t spell k r.complete_groups) _

end Run

namespace Canvas

variable (t : Tessellation) (spell : Float → List Char)

/-- The canvas with its notes on absolute commands. -/
def absolute (k : Canvas) : Canvas := k.after ⟨[],[]⟩ Note.absolute

theorem absolute_noted (c : Cursor) (k : Canvas) (r : Run) :
    (k.noted r).absolute = k.absolute.noted (r.absolute t spell c) :=
  after_noted k ⟨[],[]⟩ (r.absolute_count t spell c) (r.absolute_dropped t spell c)
    (by rw [Run.absolute_command,Run.absolute_offset]; rfl)

theorem absolute_foldl_draw (relative : Bool) (o : ℕ) (k : Canvas) (ss : List Segment) :
    (ss.foldl (draw t relative o) k).absolute = ss.foldl (draw t relative o) k.absolute :=
  after_foldl_draw t k ⟨[],[]⟩ (fun _ => rfl) relative ss

theorem foldl_draw_run (o : ℕ) (k : Canvas) (r : Run) :
    (r.absolute t spell k.cursor).segments.foldl (draw t false o) k =
      r.segments.foldl (draw t r.command.relative o) k := by
  by_cases h : r.command.relative = true
  · rw [Run.segments_eq,Run.segments_eq,Run.absolute_groups t spell k.cursor r h,
      Run.absolute_command,h]
    exact foldl_draw_absolute t spell o r.complete_groups k
  · have hr : r.absolute t spell k.cursor = r := by simp [Run.absolute,h]
    rw [hr,eq_false_of_ne_true h]

theorem cursor_drawRun {k k' : Canvas} {r : Run} (h : k.drawRun t r = .ok k') :
    k'.cursor = k.cursor.behindRun t r := by
  rw [Cursor.behindRun]
  rcases drawRun_cases t k h with ⟨hf,_,rfl⟩ | ⟨hf,rfl⟩
  · rw [draw_cursor,if_pos hf]
  · rw [if_neg hf,Run.segments_eq,cursor_foldl_draw t r.offset _ r.complete_groups,noted_cursor]

theorem drawRun_absolute {k k' : Canvas} {r : Run} (h : k.drawRun t r = .ok k') :
    k.absolute.drawRun t (r.absolute t spell k.cursor) = .ok k'.absolute := by
  have hc := r.absolute_command t spell k.cursor
  have hf : (r.absolute t spell k.cursor).command.family = r.command.family := by rw [hc]
  rcases drawRun_cases t k h with ⟨hr,hn,rfl⟩ | ⟨hr,rfl⟩
  · have hn' : (r.absolute t spell k.cursor).numbers = [] := by
      rw [← List.length_eq_zero_iff,Run.length_absolute_numbers,hn]
      rfl
    rw [drawRun_close t _ (hf.trans hr) hn',hc]
    rfl
  · have hd := foldl_draw_run t spell r.offset (k.noted r) r
    rw [noted_cursor] at hd
    rw [← hf] at hr
    rw [drawRun_segments t _ hr,← absolute_noted,hc,Run.absolute_offset,← absolute_foldl_draw,hd]

theorem drawRuns_absolute {rs : List Run} {k k' : Canvas} (h : k.drawRuns t rs = .ok k') :
    k.absolute.drawRuns t (absoluteRuns t spell k.cursor rs) = .ok k'.absolute := by
  induction rs generalizing k with
  | nil =>
    cases h
    rfl
  | cons r rs ih =>
    obtain ⟨c,hr,hrs⟩ := (drawRuns_cons_eq_ok_iff t k).mp h
    refine (drawRuns_cons_eq_ok_iff t _).mpr ⟨_,drawRun_absolute t spell hr,?_⟩
    rw [← cursor_drawRun t hr]
    exact ih hrs

end Canvas

section Tokens

variable (t : Tessellation) (spell : Float → List Char)

theorem openingFault?_absoluteRuns (ns : List Numeral) (k : Cursor) (rs : List Run)
    (h : openingFault? (ns,rs) = none) :
    openingFault? (ns,absoluteRuns t spell k rs) = none := by
  cases ns with
  | cons n ns => cases h
  | nil =>
    cases rs with
    | nil => rfl
    | cons r rs =>
      by_cases hf : r.command.family = .moveto
      · simp [openingFault?,absoluteRuns,Run.absolute_command,hf]
      · simp [openingFault?,hf] at h

theorem runs_absolute (ts : List Token) :
    runs (absolute t spell ts) = ((runs ts).1,absoluteRuns t spell .initial (runs ts).2) := by
  rw [absolute,runs_number_append,runs_flatMap_tokens,List.append_nil]

theorem relative_of_mem_absoluteRuns {k : Cursor} {rs : List Run} {r : Run}
    (h : r ∈ absoluteRuns t spell k rs) : r.command.relative = false := by
  induction rs generalizing k with
  | nil => cases h
  | cons q rs ih =>
    rcases List.mem_cons.mp h with rfl | h
    · rw [Run.absolute_command]
    · exact ih h

theorem relative_of_mem_absolute {ts : List Token} {c : Command} {o : ℕ}
    (h : Token.command c o ∈ absolute t spell ts) : c.relative = false := by
  rcases List.mem_append.mp h with h | h
  · simp at h
  · obtain ⟨r,hr,h⟩ := List.mem_flatMap.mp h
    rcases List.mem_cons.mp h with h | h
    · cases h
      exact relative_of_mem_absoluteRuns t spell hr
    · simp at h

theorem offset_absoluteRuns (k : Cursor) (rs : List Run) :
    ((absoluteRuns t spell k rs).flatMap Run.tokens).map Token.offset =
      (rs.flatMap Run.tokens).map Token.offset := by
  induction rs generalizing k with
  | nil => rfl
  | cons r rs ih =>
    have hn : ∀ ns : List Numeral,
        (ns.map Token.number).map Token.offset = ns.map Numeral.offset := fun _ => List.map_map
    simp only [absoluteRuns,List.flatMap_cons,List.map_append,ih,Run.tokens,List.map_cons,hn,
      Run.absolute_numbers_offset,Token.offset,Run.absolute_offset]

theorem offset_absolute (ts : List Token) :
    (absolute t spell ts).map Token.offset = ts.map Token.offset := by
  have h := congrArg (List.map Token.offset) (runs_append ts)
  rw [← h,absolute,List.map_append,List.map_append,offset_absoluteRuns]

/-- Accepted tokens draw the same points, bit for bit, when they are put in absolute
coordinates where they stand, and every note stays but for the letter of its command. -/
theorem interpret_absolute {ts : List Token} {a : Drawn} (h : interpret t ts = .ok a) :
    interpret t (absolute t spell ts) = .ok ⟨a.subpaths,a.notes.map Note.absolute⟩ ∧
      (absolute t spell ts).map Token.offset = ts.map Token.offset ∧
      ∀ c o, Token.command c o ∈ absolute t spell ts → c.relative = false := by
  refine ⟨?_,offset_absolute t spell ts,fun c o => relative_of_mem_absolute t spell⟩
  obtain ⟨ho,k,hk,rfl⟩ := interpret_eq_ok_iff.mp h
  have hf : k.absolute.flush = k.flush.absolute := (Canvas.after_flush k _ _).symm
  rw [interpret_eq_ok_iff,runs_absolute]
  refine ⟨openingFault?_absoluteRuns t spell _ _ _ ho,_,Canvas.drawRuns_absolute t spell hk,?_⟩
  rw [hf]
  rfl

end Tokens

/-- A relative command behind a closepath counts from the start of the closed subpath. -/
theorem interpret_absolute_reopened :
    interpret ⟨1,1,1⟩ (tokens "m1 2 3 4 5zl2 2h3v-1".toList) =
      .ok ⟨[[⟨1,2⟩,⟨4,6⟩,⟨1,2⟩],[⟨1,2⟩,⟨3,4⟩,⟨6,4⟩,⟨6,3⟩]],[.underflow ⟨.moveto,true⟩ 1 0]⟩ ∧
    interpret ⟨1,1,1⟩
        (absolute ⟨1,1,1⟩ NumberText.plain (tokens "m1 2 3 4 5zl2 2h3v-1".toList)) =
      .ok ⟨[[⟨1,2⟩,⟨4,6⟩,⟨1,2⟩],[⟨1,2⟩,⟨3,4⟩,⟨6,4⟩,⟨6,3⟩]],[.underflow ⟨.moveto,false⟩ 1 0]⟩ := by
  have h : interpret ⟨1,1,1⟩ (tokens "m1 2 3 4 5zl2 2h3v-1".toList) =
      .ok ⟨[[⟨1,2⟩,⟨4,6⟩,⟨1,2⟩],[⟨1,2⟩,⟨3,4⟩,⟨6,4⟩,⟨6,3⟩]],[.underflow ⟨.moveto,true⟩ 1 0]⟩ := by
    decide +kernel
  exact ⟨h,(interpret_absolute ⟨1,1,1⟩ NumberText.plain h).1⟩

example : absolute ⟨1,1,1⟩ NumberText.plain (tokens "m1 2 3 4 5zh3".toList) =
    tokens "M1 2 4 6 5ZH4".toList := by decide +kernel

end Path
end ExtrusionProfile
