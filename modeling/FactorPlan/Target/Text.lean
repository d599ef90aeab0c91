import FactorPlan.Target.Script
import FactorPlan.Text.Lines

/-!
The text of a script: fixed lines around its functions, steps and notes, the symbols
that it reads and the factors that it was made from.

Correspondence:
  `template.render`        ↔ `text`
  `codegen`                ↔ `write`
  `get_template(filename)` ↔ `pathParts`, `layoutFile`
-/

namespace FactorPlan

namespace Target

/-- The lines before the functions of a polars script. -/
def polarsHead : List String :=
  ["# this code is auto generated by the expr_codegen",
   "# https://github.com/wukan1986/expr_codegen",
   "# 此段代码由 expr_codegen 自动生成，欢迎提交 issue 或 pull request",
   "",
   "import re",
   "",
   "import bottleneck as bn",
   "import numpy as np",
   "import polars as pl",
   "import polars.selectors as cs",
   "import talib as ta",
   "from loguru import logger",
   "",
   "",
   "# TODO: 数据加载或外部传入",
   "df = df_input",
   "",
   "",
   "def _rolling_rank(expr: pl.Expr, window) -> pl.Expr:",
   "    return expr.map(lambda x: pl.Series((bn.move_rank(x, window) + 1) / 2))",
   "",
   "",
   "def _rolling_argmax(expr: pl.Expr, window) -> pl.Expr:",
   "    return expr.map(lambda x: pl.Series(bn.move_argmax(x, window)))",
   "",
   "",
   "def _rolling_argmin(expr: pl.Expr, window) -> pl.Expr:",
   "    return expr.map(lambda x: pl.Series(bn.move_argmin(x, window)))",
   "",
   "",
   "# !!! 函数的命名一定不能与sympy中定义的一样，否则在exec(,globals())后会修改同名变量，最终导致第二次eval(expr)时报错。所以全加下划线",
   "def _ts_decay_linear(expr: pl.Expr, window) -> pl.Expr:",
   "    return expr.map(lambda x: ta.WMA(x, window))",
   "",
   "",
   "def _rank_pct(expr: pl.Expr) -> pl.Expr:",
   "    \"\"\"rank(pct=True)\"\"\"",
   "    return expr.rank() / (expr.len() - expr.null_count())",
   "",
   "",
   "def _signed_power(x, y):",
   "    return x.sign() * (x.abs() ** y)",
   "",
   "",
   "def _scale(x, scale=1):",
   "    return x / x.abs().sum() * scale",
   "",
   "",
   "def _neutralize(x):",
   "    return x - x.mean()",
   "",
   ""]

/-- The lines after the notes of a polars script. -/
def polarsFoot : List String :=
  ["# drop intermediate columns",
   "df = df.drop(columns=filter(lambda x: re.search(r'^_x_\\d+', x), df.columns))",
   "",
   "# shrink",
   "# https://github.com/pola-rs/polars/issues/9809",
   "df = df.select(cs.all().shrink_dtype())",
   "df = df.shrink_to_fit()",
   "",
   "# logger.info('done')",
   "",
   "# save",
   "# df.write_parquet('output.parquet', compression='zstd')",
   "",
   "# print(df.tail(5))",
   "",
   "# 向外部传出数据",
   "df_output = df"]

/-- The lines before the functions of a pandas script. -/
def pandasHead : List String :=
  ["# this code is auto generated by the expr_codegen",
   "# https://github.com/wukan1986/expr_codegen",
   "# 此段代码由 expr_codegen 自动生成，欢迎提交 issue 或 pull request",
   "",
   "import re",
   "",
   "import bottleneck as bn",
   "import numpy as np",
   "import pandas as pd",
   "import talib as ta",
   "",
   "from loguru import logger",
   "",
   "",
   "# TODO: 数据加载或外部传入",
   "df = df_input",
   "",
   "def _signed_power(x, y):",
   "    return x.sign() * (x.abs() ** y)",
   "",
   "def _scale(x, scale=1):",
   "    return x / x.abs().sum() * scale",
   "",
   "def _neutralize(x):",
   "    return x - x.mean()",
   "",
   ""]

/-- The lines after the notes of a pandas script. -/
def pandasFoot : List String :=
  ["# drop intermediate columns",
   "df = df.drop(columns=filter(lambda x: re.search(r'^_x_\\d+', x), df.columns))",
   "",
   "",
   "# logger.info('done')",
   "",
   "# save",
   "# df.to_parquet('output.parquet', compression='zstd')",
   "",
   "# print(df.tail(5))",
   "",
   "# 向外部传出数据",
   "df_output = df"]

namespace Style

/-- The lines before the functions. -/
def head : Style → List String
  | .polars => polarsHead
  | .pandas => pandasHead

/-- The lines after the notes. -/
def foot : Style → List String
  | .polars => polarsFoot
  | .pandas => pandasFoot

/-- The type of data frames. -/
def frame : Style → String
  | .polars => "pl.DataFrame"
  | .pandas => "pd.DataFrame"

/-- The line before the first step. -/
def startLine : Style → String
  | .polars => "#logger.info(\"start...\")"
  | .pandas => "# logger.info(\"start...\")"

end Style

namespace Script

/-- The lines of a function. -/
def funcLines (style : Style) (name : String) (body : List BodyLine) : List String :=
  ["def " ++ name ++ "(df: " ++ style.frame ++ ") -> " ++ style.frame ++ ":",
   "\n".intercalate (body.map (BodyLine.text style)), "    return df", ""]

/-- The lines of a script that names the listed symbols and factors. -/
def lines (style : Style) (s : Script) (symbols : String) (factors : List (String × String)) : List String :=
  style.head ++ s.funcs.flatMap (fun f => funcLines style f.1 f.2) ++
  ["", style.startLine, "", "", s.sortText style] ++ s.steps.map (fun p => p.2.text style) ++
  ["", ""] ++ s.notes.map Note.text ++
  ["", "\"\"\"", symbols, "\"\"\"", "", "\"\"\""] ++ factors.map (fun f => f.1 ++ " = " ++ f.2) ++
  ["\"\"\"", ""] ++ style.foot

/-- The text of a script. -/
def text (style : Style) (s : Script) (symbols : String) (factors : List (String × String)) : String :=
  "\n".intercalate (s.lines style symbols factors)

end Script

/-- The parts of a path, without those that stay in place. -/
def pathParts (path : String) : List String :=
  ((Text.pieces '/' path.toList).map String.ofList).filter (fun p => p ≠ "" ∧ p ≠ ".")

/-- The file that holds the layout of scripts. -/
def layoutFile : String := "template.py.j2"

/-- The text of rows as a script with the layout of the given file. -/
def write {α : Type} (style : Style) (w : Writer α) (rs : Rows Key (String × α)) (symbols : String)
    (factors : List (String × String)) (layout : String) : Except ScriptError String := do
  let s ← Script.ofRows style w rs
  if pathParts layout = [layoutFile] then return s.text style symbols factors
  throw (.noLayout layout)

end Target

end FactorPlan
